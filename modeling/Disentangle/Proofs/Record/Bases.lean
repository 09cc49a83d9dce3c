import Disentangle.Proofs.Record.Needs
import Disentangle.Proofs.TypeScript.Reads

/-!
What a class needs of the imports of its source. The expression that a class extends is evaluated
when the class is loaded, as initial values are, but only the name at its left end is looked at.
Whatever else is found in such an expression becomes a need only if the source reads it elsewhere.
-/

namespace Disentangle

open TypeScript

namespace TypeScript.Statement

/-- The class that a statement declares, whether exported or not. -/
def class? : Statement → Option ClassSummary
  | .declares _ _ (.classDefinition summary) => some summary
  | _ => none

/-- A class is read at the left end of what it extends, and in its static fields. -/
theorem reads_of_class? {statement : Statement} {summary : ClassSummary}
    (h : statement.class? = some summary) :
    statement.reads = (summary.base.bind (·.root?)).toList ++ readsOfAll summary.statics := by
  unfold class? at h
  split at h
  · cases h
    rfl
  · cases h

end TypeScript.Statement

namespace FileRecord

variable {cwd path text name : Text} {statements : List Located}

/-- Whether an import of the record binds `name` by itself. -/
def BindsName (record : FileRecord) (name : Text) : Prop :=
  ∃ line ∈ record.imports, name ∈ line.names

instance (record : FileRecord) (name : Text) : Decidable (record.BindsName name) :=
  inferInstanceAs (Decidable (∃ line ∈ record.imports, name ∈ line.names))

/-- A source needs the names that it reads and that one of its imports binds. -/
theorem needs_ofStatements :
    (ofStatements cwd path text statements).needs name = true ↔
      name ∈ statements.flatMap (·.statement.reads) ∧
        (ofStatements cwd path text statements).BindsName name := by
  have hnone (imports : List ImportLine) (path : Text) :
      needs { path, imports } name = false := rfl
  unfold BindsName
  rw [← importOf?_isSome_iff]
  unfold ofStatements collect
  dsimp only
  rw [needs_foldl_addDependency, importOf?_foldl_addDependency, needs_foldl_addExport, hnone,
    or_iff_right Bool.false_ne_true]

end FileRecord

namespace Extraction

variable {cwd path text : Text} {found : Extraction} {before after : List Located}
  {located : Located} {summary : ClassSummary} {e : Expression}

theorem record_of_ofSource? (h : ofSource? cwd path text = some found) :
    found.record = FileRecord.ofStatements cwd path text
      (readSource (usesJsx (Path.standardize cwd path)) text).statements := by
  unfold ofSource? at h
  dsimp only at h
  split at h
  · cases h
    exact record_ofSource cwd path text
  · cases h

/-- A class at the top of a well-formed source. A name becomes a need exactly when an import binds
it by itself, and it stands at the left end of the expression that the class extends or something
else in the source reads it, be it a static field of the class or another statement. So all the
imported names that are found in that expression become needs exactly when those that stand
elsewhere in it than at its left end are read by something else. -/
theorem needs_base_iff (h : ofSource? cwd path text = some found)
    (hstatements : (readSource (usesJsx (Path.standardize cwd path)) text).statements =
      before ++ located :: after)
    (hclass : located.statement.class? = some summary) (hbase : summary.base = some e) :
    let readElsewhere (name : Text) : Prop := name ∈ readsOfAll summary.statics ∨
      ∃ other ∈ before ++ after, name ∈ other.statement.reads
    (∀ name, found.record.needs name = true ↔
        (e.root? = some name ∨ readElsewhere name) ∧ found.record.BindsName name) ∧
      ((∀ name ∈ e.reads, found.record.BindsName name → found.record.needs name = true) ↔
        ∀ name ∈ e.reads, found.record.BindsName name →
          e.root? ≠ some name → readElsewhere name) := by
  intro readElsewhere
  have hreads : located.statement.reads = e.root?.toList ++ readsOfAll summary.statics := by
    rw [Statement.reads_of_class? hclass, hbase]
    rfl
  have hneeds (name : Text) : found.record.needs name = true ↔
      (e.root? = some name ∨ readElsewhere name) ∧ found.record.BindsName name := by
    rw [record_of_ofSource? h, FileRecord.needs_ofStatements]
    refine and_congr_left fun _ => ?_
    rw [hstatements, List.flatMap_append, List.flatMap_cons, hreads]
    simp only [List.mem_append, Option.mem_toList, List.mem_flatMap, or_and_right, exists_or,
      readElsewhere]
    -- What stands before the class comes first on the left and behind the class on the right.
    rw [or_left_comm, or_assoc]
  refine ⟨hneeds, forall₃_congr fun name _ hbinds => ?_⟩
  rw [hneeds, and_iff_left hbinds, or_iff_not_imp_left]

/-- A class that extends the result of a call. The function that is called becomes a need by itself,
its argument because a static field reads it as well. -/
theorem needs_base_of_static :
    let text : Text :=
      "import \x7b m, B \x7d from './m';\nclass C extends m(B) \x7b static b = B; \x7d\n".toList
    ∃ found ∈ Extraction.ofSource? ['/'] "/p/c.ts".toList text,
      (∃ located ∈ (readSource false text).statements, ∃ summary ∈ located.statement.class?,
        ∃ e ∈ summary.base, e.reads = [['m'], ['B']]) ∧
        found.record.needs ['m'] = true ∧ found.record.needs ['B'] = true := by
  intro text
  have hjsx : usesJsx (Path.standardize ['/'] "/p/c.ts".toList) = false := by decide
  have hfound : ∃ found ∈ Extraction.ofSource? ['/'] "/p/c.ts".toList text,
      ∀ name ∈ [['m'], ['B']], found.record.BindsName name := by decide +kernel
  have hlocated : ∃ located ∈ (readSource false text).statements,
      ∃ summary ∈ located.statement.class?, ∃ e ∈ summary.base,
        e.reads = [['m'], ['B']] ∧ e.root? = some ['m'] ∧
          ['B'] ∈ readsOfAll summary.statics := by decide +kernel
  obtain ⟨found, hfound, hbinds⟩ := hfound
  obtain ⟨located, hmem, summary, hclass, e, hbase, hreads, hroot, hstatic⟩ := hlocated
  obtain ⟨before, after, hstatements⟩ := List.append_of_mem hmem
  obtain ⟨hneeds, -⟩ := needs_base_iff hfound (hjsx ▸ hstatements) hclass hbase
  refine ⟨found, hfound, ⟨located, hmem, summary, hclass, e, hbase, hreads⟩, ?_, ?_⟩
  · exact (hneeds _).mpr ⟨Or.inl hroot, hbinds _ (by simp)⟩
  · exact (hneeds _).mpr ⟨Or.inr (Or.inl hstatic), hbinds _ (by simp)⟩

/-- The argument in the expression that a class extends: it is imported and found there, as it would
be in an initial value, and it does not become a need. -/
theorem needs_base_without_argument :
    let text : Text :=
      "import \x7b m, B \x7d from './m';\nclass C extends m(B) \x7b\x7d\n".toList
    ∃ found ∈ Extraction.ofSource? ['/'] "/p/c.ts".toList text,
      (∃ located ∈ (readSource false text).statements, ∃ summary ∈ located.statement.class?,
        ∃ e ∈ summary.base, ['B'] ∈ e.reads) ∧
        found.record.BindsName ['B'] ∧ found.record.needs ['B'] = false := by
  decide +kernel

end Extraction

end Disentangle
