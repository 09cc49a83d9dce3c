import Disentangle.Proofs.TypeScript.Spelling

/-!
What the basic parsers and their combinators do, as one equivalence for each: a run that succeeds is
taken apart by it, and put together by it in the other direction.
-/

namespace Disentangle.TypeScript

namespace Parser

variable {α β : Type} {p : Parser α} {f : α → Parser β} {a a' : α} {b : β} {c c' : Cursor}

theorem bind_eq_some_iff :
    (p >>= f) c = some (b, c') ↔ ∃ a d, p c = some (a, d) ∧ f a d = some (b, c') := by
  change (p c).bind (fun r => f r.1 r.2) = some (b, c') ↔ _
  simp [Option.bind_eq_some_iff]

theorem bind_eq_none_iff :
    (p >>= f) c = none ↔ ∀ a d, p c = some (a, d) → f a d = none := by
  change (p c).bind (fun r => f r.1 r.2) = none ↔ _
  simp [Option.bind_eq_none_iff]

theorem pure_eq_some_iff : (pure a : Parser α) c = some (a', c') ↔ a' = a ∧ c' = c := by
  change some (a, c) = some (a', c') ↔ _
  simp [eq_comm]

/-- What a parser reads with a function applied to it. -/
theorem bind_pure_eq_some_iff {g : α → β} :
    (p >>= fun a => pure (g a)) c = some (b, c') ↔ ∃ a, p c = some (a, c') ∧ b = g a := by
  simp only [bind_eq_some_iff, pure_eq_some_iff]
  constructor
  · rintro ⟨a, d, hread, rfl, rfl⟩
    exact ⟨a, hread, rfl⟩
  · rintro ⟨a, hread, rfl⟩
    exact ⟨a, c', hread, rfl, rfl⟩

theorem failure_eq_some_iff : (failure : Parser α) c = some (a, c') ↔ False := by
  change none = some (a, c') ↔ _
  simp

theorem orElse_eq_some_iff {q : Parser α} :
    (p <|> q) c = some (a, c') ↔ p c = some (a, c') ∨ p c = none ∧ q c = some (a, c') := by
  change (p c <|> q c) = some (a, c') ↔ _
  cases p c <;> simp

theorem optional?_eq_some_iff {found : Option α} :
    optional? p c = some (found, c') ↔
      (∃ a, found = some a ∧ p c = some (a, c')) ∨ (found = none ∧ c' = c ∧ p c = none) := by
  unfold optional?
  cases p c with
  | none => simp [eq_comm]
  | some r =>
    obtain ⟨a, d⟩ := r
    simp only [Option.some.injEq, Prod.mk.injEq, reduceCtorEq, and_false, or_false]
    constructor
    · rintro ⟨rfl, rfl⟩
      exact ⟨a, rfl, rfl, rfl⟩
    · rintro ⟨a', rfl, rfl, rfl⟩
      exact ⟨rfl, rfl⟩

theorem advance_eq_some_iff {u : Unit} : advance c = some (u, c') ↔ c' = c.next := by
  change some ((), c.next) = some ((), c') ↔ _
  simp [eq_comm]

theorem discard_eq_some_iff {u : Unit} :
    (discard p : Parser Unit) c = some (u, c') ↔ ∃ a, p c = some (a, c') := by
  change (p c).bind (fun r => some ((), r.2)) = some (u, c') ↔ _
  simp [Option.bind_eq_some_iff]

theorem many_eq_nil {item : Parser (Option α)} (h : item c = some (none, c)) :
    many item c = some ([], c) := by
  change (item c).bind _ = _
  rw [h]
  rfl

theorem extend_eq_self {step : α → Parser (Option α)} (h : step a c = some (none, c)) :
    extend a step c = some (a, c) := by
  change (step a c).bind _ = _
  rw [h]
  rfl

theorem get_bind {f : Cursor → Parser β} : (get >>= f) c = f c c := rfl

theorem peek_bind {f : Token → Parser β} : (peek >>= f) c = f c.token c := rfl

theorem peekNext_bind {f : Token → Parser β} : (peekNext >>= f) c = f c.next.token c := rfl

theorem advance_bind {f : Unit → Parser β} : (advance >>= f) c = f () c.next := rfl

theorem stands_bind {token : Token} {f : Bool → Parser β} :
    (stands token >>= f) c = f (decide (c.token = token)) c := rfl

theorem accept_eq {token : Token} :
    accept token c = if c.token = token then some (true, c.next) else some (false, c) := by
  change (if decide (c.token = token) = true then (do advance; return true)
    else return false : Parser Bool) c = _
  by_cases h : c.token = token
  · rw [if_pos h, if_pos (decide_eq_true h)]
    rfl
  · rw [if_neg h, if_neg (by simpa using h)]
    rfl

theorem accept_bind_of_eq {token : Token} {f : Bool → Parser β} (h : c.token = token) :
    (accept token >>= f) c = f true c.next := by
  change (accept token c).bind _ = _
  rw [accept_eq, if_pos h]
  rfl

theorem accept_bind_of_ne {token : Token} {f : Bool → Parser β} (h : c.token ≠ token) :
    (accept token >>= f) c = f false c := by
  change (accept token c).bind _ = _
  rw [accept_eq, if_neg h]
  rfl

theorem atAnyWord_bind_of_word {words : List Text} {name : Text} {f : Bool → Parser β}
    (h : c.token = .word name) : (atAnyWord words >>= f) c = f (words.contains name) c := by
  have hread : atAnyWord words c = some (words.contains name, c) := by
    unfold atAnyWord
    rw [peek_bind, h]
    rfl
  change (atAnyWord words c).bind _ = _
  rw [hread]
  rfl

theorem atAnyWord_bind_of_ne {words : List Text} {f : Bool → Parser β}
    (h : ∀ name ∈ words, c.token ≠ .word name) : (atAnyWord words >>= f) c = f false c := by
  have hread : atAnyWord words c = some (false, c) := by
    unfold atAnyWord
    rw [peek_bind]
    cases htoken : c.token with
    | word name =>
      have hname : words.contains name = false := by
        rw [Bool.eq_false_iff]
        intro hmem
        exact h name (List.contains_iff_mem.mp hmem) htoken
      dsimp only
      rw [hname]
      rfl
    | _ => rfl
  change (atAnyWord words c).bind _ = _
  rw [hread]
  rfl

theorem expect_eq_some_iff {token : Token} {u : Unit} :
    expect token c = some (u, c') ↔ Passes c [token] c' := by
  change (if decide (c.token = token) = true then advance else failure : Parser Unit) c =
    some (u, c') ↔ _
  by_cases h : c.token = token
  · simp [h, Passes, advance_eq_some_iff]
  · simp [h, Passes, failure_eq_some_iff]

theorem word_eq_some_iff {name : Text} : word c = some (name, c') ↔ Passes c [.word name] c' := by
  unfold word
  rw [peek_bind, passes_singleton]
  cases c.token with
  | word name' =>
    change some (name', c.next) = some (name, c') ↔ _
    simp [eq_comm]
  | _ => simp [failure_eq_some_iff]

end Parser

end Disentangle.TypeScript
