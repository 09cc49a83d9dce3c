import Disentangle.Project.Sources
import Disentangle.Proofs.Files.Contents
import Disentangle.Proofs.Files.Overwriting
import Disentangle.Proofs.Project.Sound
import Disentangle.Proofs.Section.Hoisted

/-!
Moving the imports of a source file to its top, and doing so again. A file that is read can be
written, so the second run always comes to a result; it is the text that the first run wrote, unless
this ended with an open import that has set imports free.
-/

namespace Disentangle

/-- The source at a path can be read, and what it holds can be encoded, as it has been decoded. -/
structure Scene.Reads (scene : Scene) (path text : Text) : Prop where
  named : scene.platform.pathFault? (Path.components path) = none
  content : ∃ content, scene.tree.read (scene.steps path) = .ok content ∧
    Utf8.decode content = .ok text
  encoded : scene.platform.textFault? text = none

namespace Scene.Reads

variable {scene : Scene} {path text : Text}

/-- Of a sound scene it is enough that the source can be read. -/
theorem of_succeeds {scene : SoundScene} {told told' : List Event}
    (h : (Inquiry.readSource path).Succeeds scene told text told') :
    Reads scene path text := by
  obtain ⟨hpath, hcontent, -⟩ := Inquiry.succeeds_readSource.mp h
  obtain ⟨content, hread, hdecode⟩ := hcontent
  obtain ⟨place, -, hnode⟩ := FileTree.exists_locate_of_read hread
  exact ⟨hpath, ⟨content, hread, hdecode⟩, scene.encoded place text ⟨content, hnode, hdecode⟩⟩

theorem succeeds_readSource (h : scene.Reads path text) (told : List Event) :
    (Inquiry.readSource path).Succeeds scene told text told :=
  Inquiry.succeeds_readSource.mpr ⟨h.named, h.content, rfl⟩

/-- A source that is read can be written, and then it is the written text that is read. -/
theorem exists_write {result : Text} (h : scene.Reads path text)
    (hresult : scene.platform.textFault? result = none) :
    ∃ tree, scene.write path result = (tree, none) ∧
      { scene with tree }.Reads path result := by
  obtain ⟨content, hread, -⟩ := h.content
  obtain ⟨tree, hwrite, hagain⟩ := FileTree.write_of_read hread (Utf8.encode result)
  have hparent := Platform.pathFault?_of_subset h.named (List.dropLast_subset _)
  refine ⟨tree, ?_, h.named, ⟨_, hagain, Utf8.decode_encode _⟩, hresult⟩
  simp only [write, hparent, hresult, h.named, Option.or_none, hwrite, Option.map_none]

/-- The imports of a source that is read are moved to its top, and it is read again. -/
theorem succeeds_hoistImportsOf {before : Workspace} (h : before.scene.Reads path text) :
    ∃ after, (hoistImportsOf path none).Succeeds before text.hoistImports after ∧
      after.scene.Reads path text.hoistImports := by
  have hencoded : before.scene.platform.textFault? text.hoistImports = none := by
    refine Platform.textFault?_eq_none_iff.mpr fun c hc => ?_
    rcases Text.mem_hoistImports hc with hc | rfl
    · exact Platform.textFault?_eq_none_iff.mp h.encoded c hc
    · exact before.scene.platform.encodes_ascii '\n' (by decide)
  rw [hoistImportsOf]
  simp only [Work.tell, Work.succeeds_bind, Work.succeeds_inquire, Inquiry.succeeds_tell]
  let middle : Workspace := { before with events := before.events ++ [.hoistingImports path] }
  by_cases hempty : text.isEmpty = true
  · obtain rfl := List.isEmpty_iff.mp hempty
    refine ⟨{ middle with events := middle.events ++ [.emptySource path] },
      ⟨(), middle, ⟨_, rfl, rfl⟩, [], middle, ⟨_, h.succeeds_readSource _, rfl⟩, ?_⟩, h⟩
    simp only [if_pos hempty, Work.succeeds_bind, Work.succeeds_inquire, Inquiry.succeeds_tell,
      Work.succeeds_pure]
    exact ⟨(), _, ⟨_, rfl, rfl⟩, rfl, rfl⟩
  · obtain ⟨tree, hwrite, hreads⟩ := h.exists_write hencoded
    have hsucceeds : (Work.writeSource path text.hoistImports).Succeeds middle ()
        { middle with scene := { middle.scene with tree } } := by
      rw [Work.Succeeds, Work.outcome_writeSource, hwrite]
      rfl
    refine ⟨{ middle with scene := { middle.scene with tree } },
      ⟨(), middle, ⟨_, rfl, rfl⟩, text, middle, ⟨_, h.succeeds_readSource _, rfl⟩, ?_⟩, hreads⟩
    simp only [if_neg hempty, Work.succeeds_bind, Work.succeeds_pure]
    exact ⟨(), _, hsucceeds, trivial, rfl⟩

end Scene.Reads

namespace Work

/-- The imports of a source that is read are moved to its top twice. The second time changes
nothing exactly if behind what the last import has taken in of the rest no import stands behind
something else, which is so whenever the source does not end with an import that is open. -/
theorem hoistImportsOf_again {before : Workspace} {path text : Text}
    (h : before.scene.Reads path text) :
    ∃ middle after,
      (hoistImportsOf path none).Succeeds before text.hoistImports middle ∧
      (hoistImportsOf path none).Succeeds middle text.hoistImports.hoistImports after ∧
      (text.hoistImports.hoistImports = text.hoistImports ↔
        Section.ImportsLead text.leftBehindImports.sections) ∧
      ((∀ s ∈ text.sections.getLast?, s.kind = .imports → Section.IsClosed s.text) →
        text.hoistImports.hoistImports = text.hoistImports) := by
  obtain ⟨middle, hfirst, hagain⟩ := h.succeeds_hoistImportsOf
  obtain ⟨after, hsecond, -⟩ := hagain.succeeds_hoistImportsOf
  exact ⟨middle, after, hfirst, hsecond, text.hoistImports_again_iff,
    Text.hoistImports_again_of_closed⟩

/-- The source ends with an open import, but this takes in all of the rest. -/
theorem hoistImportsOf_again_open_import :
    let scene : SoundScene := .holding [("/a.ts", "f(A);\nimport \x7b A")] (by decide)
    scene.Reads "/a.ts".toList "f(A);\nimport \x7b A".toList ∧ ∃ middle after,
      (hoistImportsOf "/a.ts".toList none).Succeeds ⟨scene, []⟩
        "import \x7b A\nf(A);\n".toList middle ∧
      (hoistImportsOf "/a.ts".toList none).Succeeds middle
        "import \x7b A\nf(A);\n".toList after := by
  intro scene
  have hread : (Inquiry.readSource "/a.ts".toList).succeedsWith
      (fun text => text = "f(A);\nimport \x7b A".toList) scene = true := by
    decide
  obtain ⟨text, told, hsucceeds, htext⟩ := Inquiry.exists_succeeds hread
  obtain rfl := of_decide_eq_true htext
  have hreads : scene.Reads "/a.ts".toList "f(A);\nimport \x7b A".toList :=
    .of_succeeds hsucceeds
  obtain ⟨middle, after, hfirst, hsecond, hsame, -⟩ :=
    @hoistImportsOf_again ⟨scene, []⟩ _ _ hreads
  have hlead : Section.ImportsLead
      (Text.sections (Text.leftBehindImports "f(A);\nimport \x7b A".toList)) := by decide
  have hhoisted :
      Text.hoistImports "f(A);\nimport \x7b A".toList = "import \x7b A\nf(A);\n".toList := by
    decide
  rw [hsame.mpr hlead] at hsecond
  rw [hhoisted] at hfirst hsecond
  exact ⟨hreads, middle, after, hfirst, hsecond⟩

end Work

/-- An open import at the end of a source closes its literal within a comment, and the import that
stands farther on in this comment moves away from its place. -/
theorem Text.hoistImports_again_changes :
    let text := "/* it's\nf();\nimport A from './a';\n*/\nimport B from './b".toList
    let once := "import B from './b\n/* it's\nf();\nimport A from './a';\n*/\n".toList
    let twice := "import B from './b\n/* it's\nimport A from './a';\nf();\n*/\n".toList
    hoistImports text = once ∧ hoistImports once = twice ∧ once ≠ twice := by
  decide

end Disentangle
