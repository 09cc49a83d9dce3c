import Disentangle.Project.Work
import Mathlib.Data.List.Forall2

/-!
When work succeeds. A success of composed work is a success of its parts one after another, so
that the result of a long piece of work can be followed step by step without looking at how
events and problems are carried along.
-/

namespace Disentangle

variable {α β : Type} {a : α} {b : β}

/-- A scene with nothing but the given files, each with its path and its text. -/
def Scene.holding (files : List (String × String)) : Scene where
  cwd := ['/']
  tree := ⟨files.map fun (path, text) =>
    (Path.components path.toList, .file (Utf8.encode text.toList))⟩

namespace Inquiry

variable {scene : Scene} {before after : List Event}

/-- What becomes of an inquiry in `scene` when `before` has been told: its result, and what has
been told then. -/
def outcome (inquiry : Inquiry α) (scene : Scene) (before : List Event) :
    Except Problem α × List Event :=
  (inquiry scene).run before

/-- The inquiry comes to the result `a`, and `after` has been told then. -/
def Succeeds (inquiry : Inquiry α) (scene : Scene) (before : List Event) (a : α)
    (after : List Event) : Prop :=
  inquiry.outcome scene before = (.ok a, after)

theorem outcome_bind (inquiry : Inquiry α) (next : α → Inquiry β) :
    (inquiry >>= next).outcome scene before =
      match inquiry.outcome scene before with
      | (.ok a, middle) => (next a).outcome scene middle
      | (.error problem, middle) => (.error problem, middle) := by
  change (match inquiry.outcome scene before with
    | (result, middle) => (ExceptT.bindCont (fun a => next a scene) result :
        StateM (List Event) (Except Problem β)) middle) = _
  cases inquiry.outcome scene before with
  | mk result middle => cases result <;> rfl

/-- Whether the inquiry comes to a result that passes `check`. -/
def succeedsWith (check : α → Bool) (inquiry : Inquiry α) (scene : Scene) : Bool :=
  match inquiry.outcome scene [] with
  | (.ok a, _) => check a
  | (.error _, _) => false

theorem exists_succeeds {check : α → Bool} {inquiry : Inquiry α}
    (h : inquiry.succeedsWith check scene = true) :
    ∃ a after, inquiry.Succeeds scene [] a after ∧ check a = true := by
  rw [succeedsWith] at h
  split at h
  next a after houtcome => exact ⟨a, after, houtcome, h⟩
  next => cases h

/-- Composed inquiries succeed one after another. -/
@[simp] theorem succeeds_bind {inquiry : Inquiry α} {next : α → Inquiry β} :
    (inquiry >>= next).Succeeds scene before b after ↔
      ∃ a middle, inquiry.Succeeds scene before a middle ∧
        (next a).Succeeds scene middle b after := by
  simp only [Succeeds, outcome_bind]
  cases inquiry.outcome scene before with
  | mk result middle => cases result <;> simp [and_assoc]

@[simp] theorem succeeds_pure {a' : α} :
    (pure a : Inquiry α).Succeeds scene before a' after ↔ a = a' ∧ before = after := by
  change ((.ok a, before) : Except Problem α × List Event) = (.ok a', after) ↔ _
  simp

@[simp] theorem succeeds_map {f : β → α} {inquiry : Inquiry β} :
    (f <$> inquiry).Succeeds scene before a after ↔
      ∃ b, inquiry.Succeeds scene before b after ∧ f b = a := by
  rw [map_eq_pure_bind, succeeds_bind]
  constructor
  · rintro ⟨b, middle, hb, hpure⟩
    obtain ⟨heq, rfl⟩ := succeeds_pure.mp hpure
    exact ⟨b, hb, heq⟩
  · rintro ⟨b, hb, heq⟩
    exact ⟨b, after, hb, succeeds_pure.mpr ⟨heq, rfl⟩⟩

@[simp] theorem succeeds_read {scene' : Scene} :
    (read : Inquiry Scene).Succeeds scene before scene' after ↔
      scene = scene' ∧ before = after := by
  change ((.ok scene, before) : Except Problem Scene × List Event) = (.ok scene', after) ↔ _
  simp

@[simp] theorem not_succeeds_throw {problem : Problem} :
    ¬ (throw problem : Inquiry α).Succeeds scene before a after := by
  change ¬ ((.error problem, before) : Except Problem α × List Event) = (.ok a, after)
  simp

@[simp] theorem succeeds_tellAll {told : List Event} {u : Unit} :
    (tellAll told).Succeeds scene before u after ↔ before ++ told = after := by
  change ((.ok (), before ++ told) : Except Problem Unit × List Event) = (.ok u, after) ↔ _
  simp

@[simp] theorem succeeds_tell {event : Event} {u : Unit} :
    (tell event).Succeeds scene before u after ↔ before ++ [event] = after :=
  succeeds_tellAll

@[simp] theorem not_succeeds_fail {reason : Failure} :
    ¬ (fail reason : Inquiry α).Succeeds scene before a after :=
  not_succeeds_throw

@[simp] theorem succeeds_orFail {result : Except Failure α} :
    (orFail result).Succeeds scene before a after ↔ result = .ok a ∧ before = after := by
  cases result <;> simp [orFail]

@[simp] theorem succeeds_orFault {result : Except Fault α} :
    (orFault result).Succeeds scene before a after ↔ result = .ok a ∧ before = after := by
  cases result <;> simp [orFault]

@[simp] theorem succeeds_standardize {path path' : Text} :
    (standardize path).Succeeds scene before path' after ↔
      Path.standardize scene.cwd path = path' ∧ before = after := by
  change ((.ok (Path.standardize scene.cwd path), before) : Except Problem Text × List Event) =
    (.ok path', after) ↔ _
  simp

/-- A pass over a list succeeds item by item. -/
theorem forall₂_of_succeeds_mapM {inquiry : α → Inquiry β} {items : List α} {results : List β}
    (h : (items.mapM inquiry).Succeeds scene before results after) :
    List.Forall₂ (fun a b => ∃ told told', (inquiry a).Succeeds scene told b told') items
      results := by
  induction items generalizing before after results with
  | nil =>
    rw [List.mapM_nil, succeeds_pure] at h
    exact h.1 ▸ .nil
  | cons a rest ih =>
    rw [List.mapM_cons] at h
    simp only [succeeds_bind, succeeds_pure] at h
    obtain ⟨b, _, hb, bs, _, hbs, rfl, -⟩ := h
    exact .cons ⟨_, _, hb⟩ (ih hbs)

end Inquiry

namespace Work

variable {before after : Workspace}

/-- What becomes of work in the workspace `before`: its result, and the workspace then. -/
def outcome (work : Work α) (before : Workspace) : Except Problem α × Workspace :=
  work.run.run before

/-- The work comes to the result `a` and leaves the workspace `after`. -/
def Succeeds (work : Work α) (before : Workspace) (a : α) (after : Workspace) : Prop :=
  work.outcome before = (.ok a, after)

theorem outcome_bind (work : Work α) (next : α → Work β) :
    (work >>= next).outcome before =
      match work.outcome before with
      | (.ok a, middle) => (next a).outcome middle
      | (.error problem, middle) => (.error problem, middle) := by
  change (match work.outcome before with
    | (result, middle) => (ExceptT.bindCont next result :
        StateM Workspace (Except Problem β)) middle) = _
  cases work.outcome before with
  | mk result middle => cases result <;> rfl

theorem outcome_inquire (inquiry : Inquiry α) (before : Workspace) :
    (inquire inquiry).outcome before =
      match inquiry.outcome before.scene before.events with
      | (result, told) => (result, { before with events := told }) := rfl

theorem outcome_discard (work : Work α) (before : Workspace) :
    (discard work).outcome before =
      match work.outcome before with
      | (.ok _, after) => (.ok (), after)
      | (.error problem, after) => (.error problem, after) := by
  have hmap : discard work = work >>= fun _ => pure () := by
    rw [← map_eq_pure_bind]
    rfl
  rw [hmap, outcome_bind]
  rfl

/-- Whether the work, begun in `scene`, comes to a result that passes `check`. -/
def succeedsWith (check : α → Bool) (work : Work α) (scene : Scene) : Bool :=
  match work.outcome ⟨scene, []⟩ with
  | (.ok a, _) => check a
  | (.error _, _) => false

theorem exists_succeeds {check : α → Bool} {work : Work α} {scene : Scene}
    (h : work.succeedsWith check scene = true) :
    ∃ a after, work.Succeeds ⟨scene, []⟩ a after ∧ check a = true := by
  rw [succeedsWith] at h
  split at h
  next a after houtcome => exact ⟨a, after, houtcome, h⟩
  next => cases h

/-- Composed work succeeds one piece after another. -/
@[simp] theorem succeeds_bind {work : Work α} {next : α → Work β} :
    (work >>= next).Succeeds before b after ↔
      ∃ a middle, work.Succeeds before a middle ∧ (next a).Succeeds middle b after := by
  simp only [Succeeds, outcome_bind]
  cases work.outcome before with
  | mk result middle => cases result <;> simp [and_assoc]

@[simp] theorem succeeds_pure {a' : α} :
    (pure a : Work α).Succeeds before a' after ↔ a = a' ∧ before = after := by
  change ((.ok a, before) : Except Problem α × Workspace) = (.ok a', after) ↔ _
  simp

@[simp] theorem succeeds_discard {work : Work α} {u : Unit} :
    (discard work).Succeeds before u after ↔ ∃ a, work.Succeeds before a after := by
  simp only [Succeeds, outcome_discard]
  cases work.outcome before with
  | mk result middle => cases result <;> simp

/-- Reading work leaves the scene as it is. -/
@[simp] theorem succeeds_inquire {inquiry : Inquiry α} :
    (inquire inquiry).Succeeds before a after ↔
      ∃ told, inquiry.Succeeds before.scene before.events a told ∧
        { before with events := told } = after := by
  change ((inquiry.outcome before.scene before.events).1,
    { before with events := (inquiry.outcome before.scene before.events).2 }) = (.ok a, after) ↔ _
  unfold Inquiry.Succeeds
  cases inquiry.outcome before.scene before.events with
  | mk result told => simp [and_assoc]

end Work

end Disentangle
