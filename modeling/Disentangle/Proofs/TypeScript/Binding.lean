import Disentangle.Proofs.Lists
import Disentangle.Proofs.TypeScript.Located

/-!
What an import statement binds, each name with its own mark as a type. A reading of a source keeps
the mark of a whole import only, so the marks are told from the tokens of the statement.
-/

namespace Disentangle.TypeScript

open Disentangle.TypeScript.Parser Grammar

/-- A local name of an import statement. -/
structure Binding where
  name : Text
  /-- The name under which the module exports it; a default binding has its own name here. -/
  exported : Text
  /-- Whether `type` stands before all bindings or before this one. -/
  typeOnly : Bool
  deriving DecidableEq, Repr

/-- One name in the braces of an import, which is marked as a type as a whole if `typeOnly`. -/
inductive NameBinds (typeOnly : Bool) : List Token → Binding → Prop where
  | unmarked {tokens : List Token} {exported name : Text}
    (h : SpecifierTokens tokens (exported, name)) :
    NameBinds typeOnly tokens ⟨name, exported, typeOnly⟩
  | marked {marker : Text} {tokens : List Token} {exported name : Text}
    (hmarker : marker ∈ typeMarkers) (h : SpecifierTokens tokens (exported, name)) :
    NameBinds typeOnly (.word marker :: tokens)
      ⟨name, exported, typeOnly || marker = "type".toList⟩

/-- The names in the braces of an import. -/
inductive NamesBind (typeOnly : Bool) : List Token → List Binding → Prop where
  | nil : NamesBind typeOnly [] []
  | last {tokens : List Token} {binding : Binding} (h : NameBinds typeOnly tokens binding) :
    NamesBind typeOnly tokens [binding]
  | cons {tokens more : List Token} {binding : Binding} {others : List Binding}
    (h : NameBinds typeOnly tokens binding) (hmore : NamesBind typeOnly more others) :
    NamesBind typeOnly (tokens ++ .sign [','] :: more) (binding :: others)

/-- What stands before `from`, where no namespace is bound. -/
inductive ClauseBinds (typeOnly : Bool) : List Token → List Binding → Prop where
  | default (name : Text) : ClauseBinds typeOnly [.word name] [⟨name, name, typeOnly⟩]
  | named {tokens : List Token} {bindings : List Binding}
    (h : NamesBind typeOnly tokens bindings) :
    ClauseBinds typeOnly (.sign ['\x7b'] :: tokens ++ [.sign ['\x7d']]) bindings
  | defaultNamed (name : Text) {tokens : List Token} {bindings : List Binding}
    (h : NamesBind typeOnly tokens bindings) :
    ClauseBinds typeOnly
      (.word name :: .sign [','] :: .sign ['\x7b'] :: tokens ++ [.sign ['\x7d']])
      (⟨name, name, typeOnly⟩ :: bindings)

/-- An import statement up to the literal that names the module, and what it binds. -/
inductive ImportBinds : List Token → List Binding → Prop where
  | unmarked {clause : List Token} {bindings : List Binding}
    (h : ClauseBinds false clause bindings) :
    ImportBinds (.word "import".toList :: clause ++ [.word "from".toList]) bindings
  | type {clause : List Token} {bindings : List Binding} (h : ClauseBinds true clause bindings) :
    ImportBinds (.word "import".toList :: .word "type".toList :: clause ++ [.word "from".toList])
      bindings
  | typeof {clause : List Token} {bindings : List Binding} (h : ClauseBinds false clause bindings) :
    ImportBinds (.word "import".toList :: .word "typeof".toList :: clause ++ [.word "from".toList])
      bindings

section Unique

variable {typeOnly : Bool} {tokens clause front : List Token} {names names' : Text × Text}
  {binding binding' : Binding} {bindings bindings' : List Binding}

theorem SpecifierTokens.unique (h : SpecifierTokens tokens names)
    (h' : SpecifierTokens tokens names') : names = names' := by
  cases h <;> cases h' <;> rfl

theorem SpecifierTokens.length_eq (h : SpecifierTokens tokens names) :
    tokens.length = 1 ∨ tokens.length = 3 := by
  cases h <;> simp

/-- A mark makes the number of tokens even, so it is not taken for a name. -/
theorem NameBinds.unique (h : NameBinds typeOnly tokens binding)
    (h' : NameBinds typeOnly tokens binding') : binding = binding' := by
  cases h with
  | unmarked h =>
    cases h' with
    | unmarked h' => cases h.unique h'; rfl
    | marked _ h' =>
      have hlength := h.length_eq
      have hlength' := h'.length_eq
      rw [List.length_cons] at hlength
      omega
  | marked _ h =>
    cases h' with
    | unmarked h' =>
      have hlength := h.length_eq
      have hlength' := h'.length_eq
      rw [List.length_cons] at hlength'
      omega
    | marked _ h' => cases h.unique h'; rfl

theorem NameBinds.not_mem_sign (h : NameBinds typeOnly tokens binding) (symbol : Text) :
    .sign symbol ∉ tokens := by
  cases h with
  | unmarked h => cases h <;> simp
  | marked _ h => cases h <;> simp

theorem NameBinds.ne_nil (h : NameBinds typeOnly tokens binding) : tokens ≠ [] := by
  cases h with
  | unmarked h => cases h <;> simp
  | marked => simp

theorem NamesBind.unique (h : NamesBind typeOnly tokens bindings)
    (h' : NamesBind typeOnly tokens bindings') : bindings = bindings' := by
  induction h generalizing bindings' with
  | nil =>
    generalize hnil : [] = tokens at h'
    cases h' with
    | nil => rfl
    | last h' => exact absurd hnil.symm h'.ne_nil
    | cons h' => simp at hnil
  | @last tokens binding h =>
    generalize heq : tokens = tokens' at h'
    cases h' with
    | nil => exact absurd heq h.ne_nil
    | last h' =>
      subst heq
      rw [h.unique h']
    | cons h' => exact absurd (heq ▸ by simp) (h.not_mem_sign [','])
  | @cons tokens more binding others h hmore ih =>
    generalize heq : tokens ++ .sign [','] :: more = tokens' at h'
    cases h' with
    | nil => simp at heq
    | last h' => exact absurd (heq ▸ by simp) (h'.not_mem_sign [','])
    | cons h' hmore' =>
      obtain ⟨rfl, rfl⟩ := append_cons_inj (h.not_mem_sign _) (h'.not_mem_sign _) heq
      rw [h.unique h', ih hmore']

theorem ClauseBinds.unique (h : ClauseBinds typeOnly clause bindings)
    (h' : ClauseBinds typeOnly clause bindings') : bindings = bindings' := by
  cases h with
  | default name => cases h'; rfl
  | @named tokens _ h =>
    generalize heq : Token.sign ['\x7b'] :: tokens ++ [Token.sign ['\x7d']] = clause at h'
    cases h' with
    | default | defaultNamed => simp at heq
    | named h' =>
      simp only [List.cons_append, List.cons.injEq, List.append_cancel_right_eq, true_and] at heq
      exact h.unique (heq ▸ h')
  | @defaultNamed name tokens _ h =>
    generalize heq : Token.word name :: Token.sign [','] :: Token.sign ['\x7b'] :: tokens ++
      [Token.sign ['\x7d']] = clause at h'
    cases h' with
    | default | named => simp at heq
    | defaultNamed _ h' =>
      simp only [List.cons_append, List.cons.injEq, List.append_cancel_right_eq, true_and,
        Token.word.injEq] at heq
      obtain ⟨rfl, rfl⟩ := heq
      rw [h.unique h']

/-- Without its first word no clause is one any more. -/
theorem ClauseBinds.not_of_cons {typeOnly' : Bool} {name : Text}
    (h : ClauseBinds typeOnly (.word name :: clause) bindings) :
    ¬ ClauseBinds typeOnly' clause bindings' := by
  intro h'
  cases h with
  | default => cases h'
  | defaultNamed => cases h'

/-- What an import binds is determined by its tokens. -/
theorem ImportBinds.unique (h : ImportBinds front bindings) (h' : ImportBinds front bindings') :
    bindings = bindings' := by
  cases h with
  | @unmarked clause _ h =>
    generalize heq : Token.word "import".toList :: clause ++ [.word "from".toList] = front at h'
    cases h' with
    | unmarked h' =>
      simp only [List.cons_append, List.cons.injEq, List.append_cancel_right_eq, true_and] at heq
      exact h.unique (heq ▸ h')
    | type h' | typeof h' =>
      simp only [List.cons_append, List.cons.injEq, true_and] at heq
      rw [← List.cons_append, List.append_cancel_right_eq] at heq
      exact absurd h' (heq ▸ h).not_of_cons
  | @type clause _ h =>
    generalize heq : Token.word "import".toList :: Token.word "type".toList :: clause ++
      [.word "from".toList] = front at h'
    cases h' with
    | unmarked h' =>
      simp only [List.cons_append, List.cons.injEq, true_and] at heq
      rw [← List.cons_append, List.append_cancel_right_eq] at heq
      exact absurd h (heq ▸ h').not_of_cons
    | type h' =>
      simp only [List.cons_append, List.cons.injEq, List.append_cancel_right_eq, true_and] at heq
      exact h.unique (heq ▸ h')
    | typeof => simp at heq
  | @typeof clause _ h =>
    generalize heq : Token.word "import".toList :: Token.word "typeof".toList :: clause ++
      [.word "from".toList] = front at h'
    cases h' with
    | unmarked h' =>
      simp only [List.cons_append, List.cons.injEq, true_and] at heq
      rw [← List.cons_append, List.append_cancel_right_eq] at heq
      exact absurd h (heq ▸ h').not_of_cons
    | type => simp at heq
    | typeof h' =>
      simp only [List.cons_append, List.cons.injEq, List.append_cancel_right_eq, true_and] at heq
      exact h.unique (heq ▸ h')

end Unique

section Grammar

variable {typeOnly : Bool} {tokens clause front back : List Token} {names : Text × Text}
  {pairs named : List (Text × Text)} {binding : Binding} {bindings : List Binding}
  {default? : Option Text}

/-- The exported and the local name of a binding. -/
def Binding.pair (binding : Binding) : Text × Text :=
  (binding.exported, binding.name)

theorem NameBinds.markedTokens (h : NameBinds typeOnly tokens binding) :
    MarkedTokens tokens binding.pair := by
  cases h with
  | unmarked h => exact .unmarked h
  | marked hmarker h => exact .marked hmarker h

theorem NamesBind.namesTokens (h : NamesBind typeOnly tokens bindings) :
    NamesTokens tokens (bindings.map Binding.pair) := by
  induction h with
  | nil => exact .nil
  | last h => exact .last h.markedTokens
  | cons h _ ih => exact .cons h.markedTokens ih

/-- What binds names is an import. -/
theorem ImportBinds.importTokens (h : ImportBinds front bindings) :
    ∃ typeOnly form, ImportTokens front typeOnly form [] := by
  have hclause {typeOnly : Bool} {clause : List Token}
      (hbinds : ClauseBinds typeOnly clause bindings) :
      ∃ form, ClauseTokens (clause ++ [.word "from".toList]) form [] := by
    cases hbinds with
    | default name => exact ⟨_, .bindings (.default name)⟩
    | named hnames => exact ⟨_, .bindings (.named hnames.namesTokens)⟩
    | defaultNamed name hnames => exact ⟨_, .bindings (.defaultNamed name hnames.namesTokens)⟩
  cases h with
  | unmarked h =>
    obtain ⟨form, hform⟩ := hclause h
    exact ⟨_, form, .unmarked hform⟩
  | type h =>
    obtain ⟨form, hform⟩ := hclause h
    exact ⟨_, form, .type hform⟩
  | typeof h =>
    obtain ⟨form, hform⟩ := hclause h
    exact ⟨_, form, .typeof hform⟩

theorem MarkedTokens.exists_nameBinds (typeOnly : Bool) (h : MarkedTokens tokens names) :
    ∃ binding, NameBinds typeOnly tokens binding ∧ binding.pair = names ∧
      (typeOnly = true → binding.typeOnly = true) := by
  cases h with
  | unmarked h => exact ⟨_, .unmarked h, rfl, id⟩
  | marked hmarker h => exact ⟨_, .marked hmarker h, rfl, fun htype => by simp [htype]⟩

theorem NamesTokens.exists_namesBind (typeOnly : Bool) (h : NamesTokens tokens pairs) :
    ∃ bindings, NamesBind typeOnly tokens bindings ∧ bindings.map Binding.pair = pairs ∧
      (typeOnly = true → ∀ binding ∈ bindings, binding.typeOnly = true) := by
  induction h with
  | nil => exact ⟨[], .nil, rfl, by simp⟩
  | last h =>
    obtain ⟨binding, hbinds, rfl, htype⟩ := h.exists_nameBinds typeOnly
    exact ⟨[binding], .last hbinds, rfl, by simpa using htype⟩
  | cons h _ ih =>
    obtain ⟨binding, hbinds, rfl, htype⟩ := h.exists_nameBinds typeOnly
    obtain ⟨others, hothers, rfl, htypes⟩ := ih
    refine ⟨binding :: others, .cons hbinds hothers, rfl, fun h => ?_⟩
    rw [List.forall_mem_cons]
    exact ⟨htype h, htypes h⟩

/-- An import without a namespace binds its default name and the names in its braces. -/
theorem ImportTokens.exists_importBinds
    (h : ImportTokens front typeOnly (.bindings default? none named) back) :
    ∃ bindings, ImportBinds front bindings ∧
      bindings.map Binding.pair = default?.toList.map (fun name => (name, name)) ++ named ∧
      (typeOnly = true → ∀ binding ∈ bindings, binding.typeOnly = true) := by
  have hclause (typeOnly : Bool) {front : List Token}
      (htokens : ClauseTokens front (.bindings default? none named) back) :
      ∃ clause bindings, front = clause ++ [.word "from".toList] ∧
        ClauseBinds typeOnly clause bindings ∧
        bindings.map Binding.pair = default?.toList.map (fun name => (name, name)) ++ named ∧
        (typeOnly = true → ∀ binding ∈ bindings, binding.typeOnly = true) := by
    cases htokens with
    | bindings htokens =>
      cases htokens with
      | default name => exact ⟨_, _, rfl, .default name, rfl, by simp⟩
      | named hnames =>
        obtain ⟨bindings, hbinds, hpairs, htypes⟩ := hnames.exists_namesBind typeOnly
        exact ⟨_, bindings, rfl, .named hbinds, hpairs, htypes⟩
      | defaultNamed name hnames =>
        obtain ⟨bindings, hbinds, rfl, htypes⟩ := hnames.exists_namesBind typeOnly
        refine ⟨_, _, rfl, .defaultNamed name hbinds, rfl, fun h => ?_⟩
        rw [List.forall_mem_cons]
        exact ⟨h, htypes h⟩
  cases h with
  | unmarked h =>
    obtain ⟨clause, bindings, rfl, hbinds, hrest⟩ := hclause false h
    exact ⟨bindings, .unmarked hbinds, hrest⟩
  | type h =>
    obtain ⟨clause, bindings, rfl, hbinds, hrest⟩ := hclause true h
    exact ⟨bindings, .type hbinds, hrest⟩
  | typeof h =>
    obtain ⟨clause, bindings, rfl, hbinds, hrest⟩ := hclause false h
    exact ⟨bindings, .typeof hbinds, hrest⟩

end Grammar

/-- The number of characters before the literal that names the module, if the statement at the front
of a text is an import. -/
def moduleAt? (jsx : Bool) (t : Text) : Option Nat :=
  match readStatement jsx t with
  | some (.imports statement, _) => some statement.moduleAt
  | _ => none

/-- The statement at the front of a text is an import that introduces these bindings, told from its
tokens before the literal that names the module. -/
def Introduces (jsx : Bool) (t : Text) (bindings : List Binding) : Prop :=
  ∃ front c, ImportBinds front bindings ∧ Passes (Cursor.reading 0 t) front c ∧
    moduleAt? jsx t = some c.start

/-- The next `n` tokens from a cursor on. -/
def Cursor.tokens : Nat → Cursor → List Token
  | 0, _ => []
  | n + 1, c => c.token :: c.next.tokens n

/-- The cursor behind the next `n` tokens. -/
def Cursor.ahead : Nat → Cursor → Cursor
  | 0, c => c
  | n + 1, c => c.next.ahead n

section Introducing

variable {jsx : Bool} {p : Nat} {t : Text} {c c' : Cursor} {token : Token}
  {tokens tokens' : List Token} {bindings bindings' : List Binding}

theorem le_start : p ≤ (Cursor.reading p t).start := by
  unfold Cursor.reading
  exact Nat.le_add_right _ _

/-- A token takes up characters. -/
theorem exists_next (h : (Cursor.reading p t).token = token) (htoken : token.IsImportToken) :
    ∃ q later, (Cursor.reading p t).next = Cursor.reading q later ∧
      (Cursor.reading p t).start < q := by
  obtain ⟨breaks, gap, later, hgap, rfl, hne, hread⟩ := exists_of_reading h htoken
  have hpos := List.length_pos_iff.mpr hne
  refine ⟨_, later, by rw [reading_eq hgap htoken hread]; rfl, ?_⟩
  rw [reading_eq hgap htoken hread]
  dsimp only
  omega

theorem Passes.start_le (h : Passes (Cursor.reading p t) tokens c)
    (htokens : ∀ token ∈ tokens, token.IsImportToken) : (Cursor.reading p t).start ≤ c.start := by
  induction tokens generalizing p t with
  | nil => rw [h]
  | cons token tokens ih =>
    rw [List.forall_mem_cons] at htokens
    obtain ⟨q, later, hnext, hlt⟩ := exists_next h.1 htokens.1
    exact (hlt.le.trans le_start).trans (ih (hnext ▸ h.2) htokens.2)

/-- The tokens up to a place are determined by it. -/
theorem Passes.eq_of_start (h : Passes (Cursor.reading p t) tokens c)
    (h' : Passes (Cursor.reading p t) tokens' c') (hstart : c.start = c'.start)
    (htokens : ∀ token ∈ tokens, token.IsImportToken)
    (htokens' : ∀ token ∈ tokens', token.IsImportToken) : tokens = tokens' := by
  have hbehind {token : Token} {tokens : List Token} {c : Cursor} {p : Nat} {t : Text}
      (h : Passes (Cursor.reading p t) (token :: tokens) c)
      (htokens : ∀ other ∈ token :: tokens, other.IsImportToken) :
      (Cursor.reading p t).start < c.start := by
    rw [List.forall_mem_cons] at htokens
    obtain ⟨q, later, hnext, hlt⟩ := exists_next h.1 htokens.1
    exact hlt.trans_le (le_start.trans (Passes.start_le (hnext ▸ h.2) htokens.2))
  induction tokens generalizing p t tokens' with
  | nil =>
    cases tokens' with
    | nil => rfl
    | cons token' tokens' =>
      have hlt := hbehind h' htokens'
      rw [h] at hstart
      exact absurd hstart hlt.ne
  | cons token tokens ih =>
    cases tokens' with
    | nil =>
      have hlt := hbehind h htokens
      rw [h'] at hstart
      exact absurd hstart.symm hlt.ne
    | cons token' tokens' =>
      rw [List.forall_mem_cons] at htokens htokens'
      obtain ⟨q, later, hnext, -⟩ := exists_next h.1 htokens.1
      obtain rfl : token = token' := h.1.symm.trans h'.1
      rw [ih (hnext ▸ h.2) (hnext ▸ h'.2) htokens.2 htokens'.2]

theorem passes_tokens (n : Nat) (c : Cursor) : Passes c (c.tokens n) (c.ahead n) := by
  induction n generalizing c with
  | zero => rfl
  | succ n ih => exact ⟨rfl, ih c.next⟩

/-- What a text introduces can be seen from its first tokens. -/
theorem introduces_of_tokens {n : Nat} {front : List Token} (hbinds : ImportBinds front bindings)
    (htokens : (Cursor.reading 0 t).tokens n = front)
    (hmodule : moduleAt? jsx t = some ((Cursor.reading 0 t).ahead n).start) :
    Introduces jsx t bindings :=
  ⟨front, _, hbinds, htokens ▸ passes_tokens n _, hmodule⟩

/-- What a statement introduces is determined. -/
theorem Introduces.unique (h : Introduces jsx t bindings) (h' : Introduces jsx t bindings') :
    bindings = bindings' := by
  obtain ⟨front, c, hbinds, hpasses, hmodule⟩ := h
  obtain ⟨front', c', hbinds', hpasses', hmodule'⟩ := h'
  have hstart := Option.some.inj (hmodule.symm.trans hmodule')
  obtain ⟨_, _, htokens⟩ := hbinds.importTokens
  obtain ⟨_, _, htokens'⟩ := hbinds'.importTokens
  obtain rfl := hpasses.eq_of_start hpasses' hstart htokens.isImportToken htokens'.isImportToken
  exact hbinds.unique hbinds'

end Introducing

end Disentangle.TypeScript
