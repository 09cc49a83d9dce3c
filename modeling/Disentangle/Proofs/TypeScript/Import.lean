import Disentangle.Proofs.TypeScript.Parser
import Disentangle.TypeScript.Import

/-!
The grammar of import statements, as the tokens that a statement consists of, and the proof that
the parser reads exactly this grammar.
-/

namespace Disentangle.TypeScript

/-- One name in the braces of an import: the tokens, and the exported and the local name. -/
inductive SpecifierTokens : List Token → Text × Text → Prop where
  | bare (name : Text) : SpecifierTokens [.word name] (name, name)
  | renamed (exported name : Text) :
    SpecifierTokens [.word exported, .word "as".toList, .word name] (exported, name)
  | quoted (quote : Char) (exported name : Text) :
    SpecifierTokens [.string quote exported, .word "as".toList, .word name] (exported, name)

/-- One name in the braces of an import, with a possible mark as a type. -/
inductive MarkedTokens : List Token → Text × Text → Prop where
  | unmarked {tokens : List Token} {names : Text × Text} (h : SpecifierTokens tokens names) :
    MarkedTokens tokens names
  | marked {marker : Text} {tokens : List Token} {names : Text × Text}
    (hmarker : marker ∈ Grammar.typeMarkers) (h : SpecifierTokens tokens names) :
    MarkedTokens (.word marker :: tokens) names

/-- The sign behind a name in braces. -/
def Cursor.closesName (c : Cursor) : Prop :=
  c.token = .sign [','] ∨ c.token = .sign ['\x7d']

open Disentangle.TypeScript.Parser Grammar

variable {c c' d : Cursor} {names : Text × Text}

theorem moduleName_eq_some_iff {offset : Nat} :
    moduleName c = some (offset, c') ↔
      offset = c.start ∧ ∃ quote body, Passes c [.string quote body] c' := by
  unfold moduleName
  simp only [get_bind, passes_singleton]
  cases c.token with
  | string quote body =>
    change some (c.start, c.next) = some (offset, c') ↔ _
    simp [eq_comm]
  | _ => simp [failure_eq_some_iff]

theorem Cursor.closesName.token_ne_word (h : c.closesName) (name : Text) :
    c.token ≠ .word name := by
  rcases h with h | h <;> rw [h] <;> exact Token.noConfusion

theorem importedNames_eq_some_iff :
    importedNames c = some (names, c') ↔
      ∃ tokens, SpecifierTokens tokens names ∧ Passes c tokens c' ∧ c'.closesName := by
  unfold importedNames acceptWord keyword atSign
  rw [bind_eq_some_iff]
  constructor
  · rintro ⟨names', d, hnames, hclose⟩
    have hend : names = names' ∧ c' = d ∧ d.closesName := by
      rw [stands_bind, stands_bind] at hclose
      split at hclose
      next hsign =>
        obtain ⟨rfl, rfl⟩ := pure_eq_some_iff.mp hclose
        exact ⟨rfl, rfl, by simpa [Cursor.closesName] using hsign⟩
      next => exact (failure_eq_some_iff.mp hclose).elim
    obtain ⟨rfl, rfl, hend⟩ := hend
    rw [peek_bind] at hnames
    cases htoken : c.token with
    | word exported =>
      rw [htoken] at hnames
      dsimp only at hnames
      rw [advance_bind] at hnames
      by_cases has : c.next.token = .word "as".toList
      · rw [accept_bind_of_eq has, if_pos rfl, bind_pure_eq_some_iff] at hnames
        obtain ⟨name, hname, rfl⟩ := hnames
        exact ⟨_, .renamed exported name, ⟨htoken, has, word_eq_some_iff.mp hname⟩, hend⟩
      · rw [accept_bind_of_ne has, if_neg Bool.false_ne_true] at hnames
        obtain ⟨rfl, rfl⟩ := pure_eq_some_iff.mp hnames
        exact ⟨_, .bare exported, ⟨htoken, rfl⟩, hend⟩
    | string quote exported =>
      rw [htoken] at hnames
      dsimp only at hnames
      rw [advance_bind, bind_eq_some_iff] at hnames
      obtain ⟨u, e, hkeyword, hnames⟩ := hnames
      obtain ⟨has, rfl⟩ := expect_eq_some_iff.mp hkeyword
      obtain ⟨name, hname, rfl⟩ := bind_pure_eq_some_iff.mp hnames
      exact ⟨_, .quoted quote exported name, ⟨htoken, has, word_eq_some_iff.mp hname⟩, hend⟩
    | _ =>
      rw [htoken] at hnames
      exact (failure_eq_some_iff.mp hnames).elim
  · rintro ⟨tokens, htokens, hpasses, hclose⟩
    refine ⟨names, c', ?_, ?_⟩
    · cases htokens with
      | bare name =>
        obtain ⟨hname, rfl⟩ := hpasses
        rw [peek_bind, hname]
        dsimp only
        rw [advance_bind, accept_bind_of_ne (hclose.token_ne_word _)]
        rfl
      | renamed exported name =>
        obtain ⟨hexported, has, hname⟩ := hpasses
        rw [peek_bind, hexported]
        dsimp only
        rw [advance_bind, accept_bind_of_eq has]
        exact bind_pure_eq_some_iff.mpr ⟨name, word_eq_some_iff.mpr hname, rfl⟩
      | quoted quote exported name =>
        obtain ⟨hexported, has, hname⟩ := hpasses
        rw [peek_bind, hexported]
        refine bind_eq_some_iff.mpr ⟨(), c.next, rfl, ?_⟩
        refine bind_eq_some_iff.mpr ⟨(), c.next.next, expect_eq_some_iff.mpr ⟨has, rfl⟩, ?_⟩
        exact bind_pure_eq_some_iff.mpr ⟨name, word_eq_some_iff.mpr hname, rfl⟩
    · rw [stands_bind, stands_bind, if_pos (by simpa [Cursor.closesName] using hclose)]
      rfl

/-- A mark is not read as a name where another name follows it. -/
theorem importedNames_marked {marker : Text} {tokens : List Token}
    (hmarker : c.token = .word marker) (htokens : SpecifierTokens tokens names)
    (hpasses : Passes c.next tokens c') (hclose : c'.closesName) : importedNames c = none := by
  rw [Option.eq_none_iff_forall_ne_some]
  rintro ⟨names', d⟩ hread
  obtain ⟨tokens', htokens', hpasses', hclose'⟩ := importedNames_eq_some_iff.mp hread
  cases htokens' with
  | bare name =>
    obtain ⟨-, rfl⟩ := hpasses'
    cases htokens with
    | bare | renamed => exact hclose'.token_ne_word _ hpasses.1
    | quoted => rcases hclose' with h | h <;> exact Token.noConfusion (h.symm.trans hpasses.1)
  | renamed exported name =>
    obtain ⟨-, has, hname, rfl⟩ := hpasses'
    cases htokens with
    | bare =>
      obtain ⟨-, rfl⟩ := hpasses
      exact hclose.token_ne_word _ hname
    | renamed => exact hclose'.token_ne_word _ hpasses.2.2.1
    | quoted => exact Token.noConfusion (has.symm.trans hpasses.1)
  | quoted => exact Token.noConfusion (hmarker.symm.trans hpasses'.1)

theorem importSpecifier_eq_some_iff :
    importSpecifier c = some (names, c') ↔
      ∃ tokens, MarkedTokens tokens names ∧ Passes c tokens c' ∧ c'.closesName := by
  unfold importSpecifier
  rw [orElse_eq_some_iff]
  constructor
  · rintro (h | ⟨-, h⟩)
    · obtain ⟨tokens, htokens, hpasses, hclose⟩ := importedNames_eq_some_iff.mp h
      exact ⟨tokens, .unmarked htokens, hpasses, hclose⟩
    · by_cases hmarker : ∃ marker ∈ typeMarkers, c.token = .word marker
      · obtain ⟨marker, hmem, hmarker⟩ := hmarker
        rw [atAnyWord_bind_of_word hmarker, if_pos (List.contains_iff_mem.mpr hmem),
          advance_bind] at h
        obtain ⟨tokens, htokens, hpasses, hclose⟩ := importedNames_eq_some_iff.mp h
        exact ⟨_, .marked hmem htokens, ⟨hmarker, hpasses⟩, hclose⟩
      · have hnone : ∀ name ∈ typeMarkers, c.token ≠ .word name :=
          fun name hmem htoken => hmarker ⟨name, hmem, htoken⟩
        rw [atAnyWord_bind_of_ne hnone] at h
        exact (failure_eq_some_iff.mp h).elim
  · rintro ⟨tokens, htokens, hpasses, hclose⟩
    cases htokens with
    | unmarked htokens =>
      exact .inl (importedNames_eq_some_iff.mpr ⟨tokens, htokens, hpasses, hclose⟩)
    | marked hmem htokens =>
      obtain ⟨hmarker, hpasses⟩ := hpasses
      refine .inr ⟨importedNames_marked hmarker htokens hpasses hclose, ?_⟩
      rw [atAnyWord_bind_of_word hmarker, if_pos (List.contains_iff_mem.mpr hmem), advance_bind]
      exact importedNames_eq_some_iff.mpr ⟨_, htokens, hpasses, hclose⟩

/-- The names in the braces of an import, with commas between them and possibly one at the end. -/
inductive NamesTokens : List Token → List (Text × Text) → Prop where
  | nil : NamesTokens [] []
  | last {tokens : List Token} {names : Text × Text} (h : MarkedTokens tokens names) :
    NamesTokens tokens [names]
  | cons {tokens more : List Token} {names : Text × Text} {others : List (Text × Text)}
    (h : MarkedTokens tokens names) (hmore : NamesTokens more others) :
    NamesTokens (tokens ++ .sign [','] :: more) (names :: others)

/-- The first token of a name in braces is no sign. -/
theorem MarkedTokens.token_ne_sign {tokens : List Token} (h : MarkedTokens tokens names)
    (hpasses : Passes c tokens c') (symbol : Text) : c.token ≠ .sign symbol := by
  intro hsign
  cases h with
  | unmarked h => cases h <;> exact Token.noConfusion (hsign.symm.trans hpasses.1)
  | marked => exact Token.noConfusion (hsign.symm.trans hpasses.1)

/-- A brace ends a list in braces, and every item before it is followed by a comma or that brace. -/
theorem separatedItem_eq_some_iff {α : Type} {item : Parser α} {found : Option α} :
    separatedItem "\x7d" item c = some (found, c') ↔
      (c.token = .sign ['\x7d'] ∧ found = none ∧ c' = c) ∨
      (c.token ≠ .sign ['\x7d'] ∧ ∃ a d, item c = some (a, d) ∧ found = some a ∧
        (d.token = .sign [','] ∧ c' = d.next ∨ d.token = .sign ['\x7d'] ∧ c' = d)) := by
  have hbrace : "\x7d".toList = ['\x7d'] := rfl
  have hcomma : ",".toList = [','] := rfl
  unfold separatedItem atSign acceptSign
  rw [hbrace, hcomma, stands_bind]
  by_cases hend : c.token = .sign ['\x7d']
  · rw [if_pos (decide_eq_true hend), pure_eq_some_iff]
    simp [hend]
  rw [if_neg (by simpa using hend), bind_eq_some_iff]
  simp only [hend, false_and, false_or, not_false_eq_true, true_and, ne_eq]
  refine exists_congr fun a => exists_congr fun d => and_congr_right fun _ => ?_
  by_cases hnext : d.token = .sign [',']
  · rw [accept_bind_of_eq hnext, stands_bind, if_neg (by simp)]
    simp [pure_eq_some_iff, hnext]
  · rw [accept_bind_of_ne hnext, stands_bind]
    by_cases hlast : d.token = .sign ['\x7d']
    · rw [if_neg (by simp [hlast])]
      simp [pure_eq_some_iff, hlast]
    · rw [if_pos (by simp [hlast]), bind_eq_some_iff]
      simp [failure_eq_some_iff, hnext, hlast]

theorem NamesTokens.length_le {tokens : List Token} {pairs : List (Text × Text)}
    (h : NamesTokens tokens pairs) : pairs.length ≤ tokens.length := by
  induction h with
  | nil => exact le_rfl
  | last h =>
    cases h with
    | unmarked h => cases h <;> simp
    | marked => simp
  | cons h hmore ih =>
    simp only [List.length_cons, List.length_append]
    omega

/-- No name begins with a sign. -/
theorem NamesTokens.eq_nil {tokens : List Token} {pairs : List (Text × Text)} {symbol : Text}
    (h : NamesTokens tokens pairs) (hpasses : Passes c tokens c') (hsign : c.token = .sign symbol) :
    tokens = [] ∧ pairs = [] := by
  cases h with
  | nil => exact ⟨rfl, rfl⟩
  | last h => exact absurd hsign (h.token_ne_sign hpasses symbol)
  | cons h hmore =>
    obtain ⟨d, hfirst, -⟩ := passes_append.mp hpasses
    exact absurd hsign (h.token_ne_sign hfirst symbol)

theorem collect_eq_some_iff {n : Nat} {pairs : List (Text × Text)} :
    collect (separatedItem "\x7d" importSpecifier) n c = some (pairs, c') ↔
      (∃ tokens, NamesTokens tokens pairs ∧ Passes c tokens c' ∧ c'.token = .sign ['\x7d']) ∧
        pairs.length < n := by
  induction n generalizing c pairs with
  | zero => simp [collect, failure_eq_some_iff]
  | succ n ih =>
    rw [collect, bind_eq_some_iff]
    constructor
    · rintro ⟨found, d, hitem, hrest⟩
      obtain ⟨hend, rfl, rfl⟩ | ⟨-, names, e, hnames, rfl, hnext⟩ :=
        separatedItem_eq_some_iff.mp hitem
      · obtain ⟨rfl, rfl⟩ := pure_eq_some_iff.mp hrest
        exact ⟨⟨[], .nil, rfl, hend⟩, Nat.succ_pos n⟩
      · obtain ⟨others, f, hothers, hpure⟩ := bind_eq_some_iff.mp hrest
        obtain ⟨rfl, rfl⟩ := pure_eq_some_iff.mp hpure
        obtain ⟨tokens, htokens, hpasses, -⟩ := importSpecifier_eq_some_iff.mp hnames
        obtain ⟨⟨more, hmore, hpasses', hend⟩, hlength⟩ := ih.mp hothers
        refine ⟨?_, by simpa using hlength⟩
        rcases hnext with ⟨hcomma, rfl⟩ | ⟨hbrace, rfl⟩
        · exact ⟨_, .cons htokens hmore, passes_append.mpr ⟨e, hpasses, hcomma, hpasses'⟩, hend⟩
        · obtain ⟨rfl, rfl⟩ := hmore.eq_nil hpasses' hbrace
          cases hpasses'
          exact ⟨tokens, .last htokens, hpasses, hend⟩
    · rintro ⟨⟨tokens, htokens, hpasses, hend⟩, hlength⟩
      cases htokens with
      | nil =>
        cases hpasses
        exact ⟨none, c', separatedItem_eq_some_iff.mpr (.inl ⟨hend, rfl, rfl⟩), rfl⟩
      | @last _ names h =>
        have hnames := importSpecifier_eq_some_iff.mpr ⟨tokens, h, hpasses, .inr hend⟩
        have hstart := h.token_ne_sign hpasses ['\x7d']
        have hitem := separatedItem_eq_some_iff.mpr
          (.inr ⟨hstart, names, c', hnames, rfl, .inr ⟨hend, rfl⟩⟩)
        have hmore : collect (separatedItem "\x7d" importSpecifier) n c' = some ([], c') :=
          ih.mpr ⟨⟨[], .nil, rfl, hend⟩, by simpa using hlength⟩
        exact ⟨some names, c', hitem, bind_eq_some_iff.mpr ⟨[], c', hmore, rfl⟩⟩
      | @cons _ more names others h hmore =>
        obtain ⟨d, hfirst, hcomma, hpasses'⟩ := passes_append.mp hpasses
        have hnames := importSpecifier_eq_some_iff.mpr ⟨_, h, hfirst, .inl hcomma⟩
        have hstart := h.token_ne_sign hfirst ['\x7d']
        have hitem := separatedItem_eq_some_iff.mpr
          (.inr ⟨hstart, names, d, hnames, rfl, .inl ⟨hcomma, rfl⟩⟩)
        have hothers :
            collect (separatedItem "\x7d" importSpecifier) n d.next = some (others, c') :=
          ih.mpr ⟨⟨more, hmore, hpasses', hend⟩, by simpa using hlength⟩
        exact ⟨some names, d.next, hitem, bind_eq_some_iff.mpr ⟨others, c', hothers, rfl⟩⟩

theorem MarkedTokens.isImportToken {tokens : List Token} (h : MarkedTokens tokens names) :
    ∀ token ∈ tokens, token.IsImportToken := by
  cases h with
  | unmarked h => cases h <;> simp [Token.IsImportToken]
  | marked _ h => cases h <;> simp [Token.IsImportToken]

theorem NamesTokens.isImportToken {tokens : List Token} {pairs : List (Text × Text)}
    (h : NamesTokens tokens pairs) : ∀ token ∈ tokens, token.IsImportToken := by
  induction h with
  | nil => simp
  | last h => exact h.isImportToken
  | cons h _ ih =>
    rw [List.forall_mem_append, List.forall_mem_cons]
    exact ⟨h.isImportToken, by simp [Token.IsImportToken, importSigns], ih⟩

theorem namedImports_eq_some_iff {pairs : List (Text × Text)} :
    namedImports c = some (pairs, c') ↔
      ∃ tokens, NamesTokens tokens pairs ∧
        Passes c (.sign ['\x7b'] :: tokens ++ [.sign ['\x7d']]) c' := by
  have hmany {d : Cursor} : many (separatedItem "\x7d" importSpecifier) d =
      collect (separatedItem "\x7d" importSpecifier) (d.here.length + 2) d := rfl
  unfold namedImports commaList sign
  simp only [bind_eq_some_iff, expect_eq_some_iff, pure_eq_some_iff, hmany, collect_eq_some_iff]
  constructor
  · rintro ⟨_, _, ⟨hopen, rfl⟩, _, d, ⟨⟨tokens, htokens, hpasses, hend⟩, -⟩, _, _, hclose, rfl, rfl⟩
    exact ⟨tokens, htokens, hopen, passes_append.mpr ⟨d, hpasses, hclose⟩⟩
  · rintro ⟨tokens, htokens, hopen, hpasses⟩
    obtain ⟨d, hpasses, hclose⟩ := passes_append.mp hpasses
    -- Every name takes a character, so the bound on their number is not reached.
    have hlength : tokens.length ≤ c.next.here.length :=
      Passes.length_le hpasses htokens.isImportToken
    have hbound := htokens.length_le
    exact ⟨(), c.next, ⟨hopen, rfl⟩, pairs, d, ⟨⟨tokens, htokens, hpasses, hclose.1⟩, by omega⟩,
      (), c', hclose, rfl, rfl⟩

theorem namespaceImport_eq_some_iff {name : Text} :
    namespaceImport c = some (name, c') ↔
      Passes c [.sign ['*'], .word "as".toList, .word name] c' := by
  unfold namespaceImport sign keyword
  simp only [bind_eq_some_iff, expect_eq_some_iff, word_eq_some_iff, passes_singleton]
  constructor
  · rintro ⟨_, _, ⟨hstar, rfl⟩, _, _, ⟨has, rfl⟩, hname, rfl⟩
    exact ⟨hstar, has, hname, rfl⟩
  · rintro ⟨hstar, has, hname, rfl⟩
    exact ⟨(), _, ⟨hstar, rfl⟩, (), _, ⟨has, rfl⟩, hname, rfl⟩

/-- What stands between `import` and `from`, a mark as a type apart. -/
inductive BindingTokens : List Token → ImportForm → Prop where
  | default (name : Text) : BindingTokens [.word name] (.bindings (some name) none [])
  | namespaced (name : Text) :
    BindingTokens [.sign ['*'], .word "as".toList, .word name] (.bindings none (some name) [])
  | named {tokens : List Token} {pairs : List (Text × Text)} (h : NamesTokens tokens pairs) :
    BindingTokens (.sign ['\x7b'] :: tokens ++ [.sign ['\x7d']]) (.bindings none none pairs)
  | defaultNamespaced (default name : Text) :
    BindingTokens [.word default, .sign [','], .sign ['*'], .word "as".toList, .word name]
      (.bindings (some default) (some name) [])
  | defaultNamed (default : Text) {tokens : List Token} {pairs : List (Text × Text)}
    (h : NamesTokens tokens pairs) :
    BindingTokens (.word default :: .sign [','] :: .sign ['\x7b'] :: tokens ++ [.sign ['\x7d']])
      (.bindings (some default) none pairs)

section Bindings

variable {form : ImportForm}

theorem namespaceImport_bind_eq_some_iff {f : Text → ImportForm} :
    (namespaceImport >>= fun name => pure (f name)) c = some (form, c') ↔
      ∃ name, form = f name ∧
        Passes c [.sign ['*'], .word "as".toList, .word name] c' := by
  simp only [bind_pure_eq_some_iff, namespaceImport_eq_some_iff, and_comm]

theorem namedImports_bind_eq_some_iff {f : List (Text × Text) → ImportForm} :
    (namedImports >>= fun pairs => pure (f pairs)) c = some (form, c') ↔
      ∃ pairs tokens, form = f pairs ∧ NamesTokens tokens pairs ∧
        Passes c (.sign ['\x7b'] :: tokens ++ [.sign ['\x7d']]) c' := by
  simp only [bind_pure_eq_some_iff, namedImports_eq_some_iff]
  constructor
  · rintro ⟨pairs, ⟨tokens, htokens, hpasses⟩, rfl⟩
    exact ⟨pairs, tokens, rfl, htokens, hpasses⟩
  · rintro ⟨pairs, tokens, rfl, htokens, hpasses⟩
    exact ⟨pairs, ⟨tokens, htokens, hpasses⟩, rfl⟩

theorem importBindings_eq_some_iff (hend : c'.token ≠ .sign [',']) :
    importBindings c = some (form, c') ↔
      ∃ tokens, BindingTokens tokens form ∧ Passes c tokens c' := by
  have hcomma : ",".toList = [','] := rfl
  have hstar : "*".toList = ['*'] := rfl
  unfold importBindings acceptSign atSign
  rw [peek_bind, hcomma, hstar]
  constructor
  · intro h
    obtain ⟨p, hp, h⟩ : ∃ p : Parser ImportForm, p = _ ∧ p c = some (form, c') := ⟨_, rfl, h⟩
    split at hp
    next htoken =>
      subst hp
      obtain ⟨name, rfl, hpasses⟩ := namespaceImport_bind_eq_some_iff.mp h
      exact ⟨_, .namespaced name, hpasses⟩
    next htoken =>
      subst hp
      obtain ⟨pairs, tokens, rfl, htokens, hpasses⟩ := namedImports_bind_eq_some_iff.mp h
      exact ⟨_, .named htokens, hpasses⟩
    next default hdefault =>
      rw [hp, advance_bind] at h
      by_cases hnext : c.next.token = .sign [',']
      · rw [accept_bind_of_eq hnext, if_pos rfl, stands_bind] at h
        split at h
        · obtain ⟨name, rfl, hpasses⟩ := namespaceImport_bind_eq_some_iff.mp h
          exact ⟨_, .defaultNamespaced default name, hdefault, hnext, hpasses⟩
        · obtain ⟨pairs, tokens, rfl, htokens, hpasses⟩ := namedImports_bind_eq_some_iff.mp h
          exact ⟨_, .defaultNamed default htokens, hdefault, hnext, hpasses⟩
      · rw [accept_bind_of_ne hnext, if_neg Bool.false_ne_true] at h
        obtain ⟨rfl, rfl⟩ := pure_eq_some_iff.mp h
        exact ⟨_, .default default, hdefault, rfl⟩
    next =>
      rw [hp] at h
      exact (failure_eq_some_iff.mp h).elim
  · rintro ⟨tokens, htokens, hpasses⟩
    cases htokens with
    | default name =>
      obtain ⟨hname, rfl⟩ := hpasses
      rw [hname]
      dsimp only
      rw [advance_bind, accept_bind_of_ne hend]
      rfl
    | namespaced name =>
      rw [hpasses.1]
      exact namespaceImport_bind_eq_some_iff.mpr ⟨name, rfl, hpasses⟩
    | @named tokens pairs h =>
      rw [hpasses.1]
      exact namedImports_bind_eq_some_iff.mpr ⟨pairs, tokens, rfl, h, hpasses⟩
    | defaultNamespaced default name =>
      obtain ⟨hdefault, hnext, hpasses⟩ := hpasses
      rw [hdefault]
      dsimp only
      rw [advance_bind, accept_bind_of_eq hnext, if_pos rfl, stands_bind,
        if_pos (decide_eq_true hpasses.1)]
      exact namespaceImport_bind_eq_some_iff.mpr ⟨name, rfl, hpasses⟩
    | @defaultNamed default tokens pairs h =>
      obtain ⟨hdefault, hnext, hpasses⟩ := hpasses
      rw [hdefault]
      dsimp only
      rw [advance_bind, accept_bind_of_eq hnext, if_pos rfl, stands_bind,
        if_neg (by simp [hpasses.1])]
      exact namedImports_bind_eq_some_iff.mpr ⟨pairs, tokens, rfl, h, hpasses⟩

end Bindings

/-- What stands behind `import` and a mark as a type: the tokens before the literal that names the
module, what they bind, and the tokens behind it. -/
inductive ClauseTokens : List Token → ImportForm → List Token → Prop where
  | effect : ClauseTokens [] .effect []
  | require (name : Text) :
    ClauseTokens [.word name, .sign ['='], .word "require".toList, .sign ['(']] (.require name)
      [.sign [')']]
  | bindings {tokens : List Token} {form : ImportForm} (h : BindingTokens tokens form) :
    ClauseTokens (tokens ++ [.word "from".toList]) form []

section Tail

variable {g : Grammar} {typeOnly : Bool} {statement : ImportStatement}

/-- What stands behind `import` and a mark is read from a cursor on. -/
inductive ReadsTail (g : Grammar) (typeOnly : Bool) (c c' : Cursor) : ImportStatement → Prop where
  | intro {front back : List Token} {form : ImportForm} {d e : Cursor} {quote : Char} {body : Text}
    (hclause : ClauseTokens front form back) (hfront : Passes c front d)
    (hmodule : Passes d (.string quote body :: back) e)
    (hattributes : g.importAttributesIfAny e = some ((), c')) :
    ReadsTail g typeOnly c c' ⟨typeOnly, form, d.start⟩

theorem importEquals_eq_none (h : (∀ name, c.token ≠ .word name) ∨ c.next.token ≠ .sign ['=']) :
    g.importEquals typeOnly c = none := by
  rw [Option.eq_none_iff_forall_ne_some]
  rintro ⟨found, d⟩ hread
  unfold importEquals sign at hread
  obtain ⟨name, e, hword, hread⟩ := bind_eq_some_iff.mp hread
  obtain ⟨hname, rfl⟩ := word_eq_some_iff.mp hword
  obtain ⟨_, _, hequals, -⟩ := bind_eq_some_iff.mp hread
  rcases h with h | h
  · exact h name hname
  · exact h (expect_eq_some_iff.mp hequals).1

theorem requireCall_eq_some_iff {offset : Nat} :
    requireCall c = some (offset, c') ↔
      ∃ quote body d, Passes c [.word "require".toList, .sign ['(']] d ∧
        Passes d [.string quote body, .sign [')']] c' ∧ offset = d.start := by
  unfold requireCall sign keyword
  simp only [bind_eq_some_iff, expect_eq_some_iff, moduleName_eq_some_iff, pure_eq_some_iff,
    passes_singleton]
  constructor
  · rintro ⟨_, _, ⟨hrequire, rfl⟩, _, _, ⟨hopen, rfl⟩, _, _, ⟨rfl, quote, body, hmodule, rfl⟩,
      _, _, ⟨hclose, rfl⟩, rfl, rfl⟩
    exact ⟨quote, body, _, ⟨hrequire, hopen, rfl⟩, ⟨hmodule, hclose, rfl⟩, rfl⟩
  · rintro ⟨quote, body, _, ⟨hrequire, hopen, rfl⟩, ⟨hmodule, hclose, rfl⟩, rfl⟩
    exact ⟨(), _, ⟨hrequire, rfl⟩, (), _, ⟨hopen, rfl⟩, _, _, ⟨rfl, quote, body, hmodule, rfl⟩,
      (), _, ⟨hclose, rfl⟩, rfl, rfl⟩

theorem importEquals_eq_some_iff :
    g.importEquals typeOnly c = some (some statement, c') ↔
      ∃ name quote body d e,
        Passes c [.word name, .sign ['='], .word "require".toList, .sign ['(']] d ∧
        Passes d [.string quote body, .sign [')']] e ∧
        g.importAttributesIfAny e = some ((), c') ∧
        statement = ⟨typeOnly, .require name, d.start⟩ := by
  have hequals : "=".toList = ['='] := rfl
  unfold importEquals sign
  rw [hequals]
  constructor
  · intro h
    obtain ⟨name, _, hword, h⟩ := bind_eq_some_iff.mp h
    obtain ⟨hname, rfl⟩ := word_eq_some_iff.mp hword
    obtain ⟨_, _, hsign, h⟩ := bind_eq_some_iff.mp h
    obtain ⟨hequals, rfl⟩ := expect_eq_some_iff.mp hsign
    obtain ⟨found, e, hcall, h⟩ := bind_eq_some_iff.mp h
    obtain ⟨offset, rfl, hrequire⟩ | ⟨rfl, rfl, -⟩ := optional?_eq_some_iff.mp hcall
    · obtain ⟨_, _, hattributes, hpure⟩ := bind_eq_some_iff.mp h
      obtain ⟨hstatement, rfl⟩ := pure_eq_some_iff.mp hpure
      cases hstatement
      obtain ⟨quote, body, d, hfront, hmodule, rfl⟩ := requireCall_eq_some_iff.mp hrequire
      exact ⟨name, quote, body, d, e, ⟨hname, hequals, hfront⟩, hmodule, hattributes, rfl⟩
    · -- A member of a namespace makes no import.
      dsimp only at h
      split at h
      · obtain ⟨_, _, hfailure, -⟩ := bind_eq_some_iff.mp h
        exact (failure_eq_some_iff.mp hfailure).elim
      · obtain ⟨_, _, -, hpure⟩ := bind_eq_some_iff.mp h
        cases (pure_eq_some_iff.mp hpure).1
  · rintro ⟨name, quote, body, d, e, ⟨hname, hequals, hfront⟩, hmodule, hattributes, rfl⟩
    have hcall := requireCall_eq_some_iff.mpr ⟨quote, body, d, hfront, hmodule, rfl⟩
    refine bind_eq_some_iff.mpr ⟨name, c.next, word_eq_some_iff.mpr ⟨hname, rfl⟩, ?_⟩
    refine bind_eq_some_iff.mpr ⟨(), c.next.next, expect_eq_some_iff.mpr ⟨hequals, rfl⟩, ?_⟩
    refine bind_eq_some_iff.mpr ⟨_, e, optional?_eq_some_iff.mpr (.inl ⟨d.start, rfl, hcall⟩), ?_⟩
    exact bind_eq_some_iff.mpr ⟨(), c', hattributes, rfl⟩

theorem importedModule_eq_some_iff {form : ImportForm} {found : Option ImportStatement} :
    g.importedModule typeOnly form c = some (found, c') ↔
      ∃ quote body d, Passes c [.string quote body] d ∧
        g.importAttributesIfAny d = some ((), c') ∧ found = some ⟨typeOnly, form, c.start⟩ := by
  unfold importedModule
  constructor
  · intro h
    obtain ⟨offset, d, hmodule, h⟩ := bind_eq_some_iff.mp h
    obtain ⟨rfl, quote, body, hpasses⟩ := moduleName_eq_some_iff.mp hmodule
    obtain ⟨_, _, hattributes, hpure⟩ := bind_eq_some_iff.mp h
    obtain ⟨rfl, rfl⟩ := pure_eq_some_iff.mp hpure
    exact ⟨quote, body, d, hpasses, hattributes, rfl⟩
  · rintro ⟨quote, body, d, hpasses, hattributes, rfl⟩
    have hmodule := moduleName_eq_some_iff.mpr ⟨rfl, quote, body, hpasses⟩
    exact bind_eq_some_iff.mpr ⟨_, d, hmodule, bind_eq_some_iff.mpr ⟨(), c', hattributes, rfl⟩⟩

theorem ReadsTail.of_importTail (h : g.importTail typeOnly c = some (some statement, c')) :
    ReadsTail g typeOnly c c' statement := by
  unfold importTail keyword at h
  rw [peek_bind] at h
  obtain ⟨p, hp, h⟩ : ∃ p : Parser (Option ImportStatement),
    p = _ ∧ p c = some (some statement, c') := ⟨_, rfl, h⟩
  split at hp
  · subst hp
    obtain ⟨quote, body, d, hpasses, hattributes, hstatement⟩ := importedModule_eq_some_iff.mp h
    cases hstatement
    exact .intro .effect rfl hpasses hattributes
  · subst hp
    obtain ⟨found, d, hoptional, hrest⟩ := bind_eq_some_iff.mp h
    obtain ⟨found, rfl, hequals⟩ | ⟨rfl, rfl, -⟩ := optional?_eq_some_iff.mp hoptional
    · obtain ⟨rfl, rfl⟩ := pure_eq_some_iff.mp hrest
      obtain ⟨name, quote, body, e, e', hfront, hmodule, hattributes, rfl⟩ :=
        importEquals_eq_some_iff.mp hequals
      exact .intro (.require name) hfront hmodule hattributes
    · obtain ⟨form, e, hform, hrest⟩ := bind_eq_some_iff.mp hrest
      obtain ⟨_, e', hkeyword, hrest⟩ := bind_eq_some_iff.mp hrest
      have hfrom := expect_eq_some_iff.mp hkeyword
      obtain ⟨quote, body, d', hpasses, hattributes, hstatement⟩ :=
        importedModule_eq_some_iff.mp hrest
      cases hstatement
      have hcomma : e.token ≠ .sign [','] := by simp [hfrom.1]
      obtain ⟨tokens, htokens, hfront⟩ := (importBindings_eq_some_iff hcomma).mp hform
      exact .intro (.bindings htokens) (passes_append.mpr ⟨e, hfront, hfrom⟩) hpasses hattributes

theorem importTail_of_ne_string (h : ∀ quote body, c.token ≠ .string quote body) :
    g.importTail typeOnly c = (do
      match ← optional? (g.importEquals typeOnly) with
      | some statement => return statement
      | none =>
        let form ← importBindings
        keyword "from"
        g.importedModule typeOnly form : Parser (Option ImportStatement)) c := by
  unfold importTail
  rw [peek_bind]
  cases htoken : c.token with
  | string quote body => exact absurd htoken (h quote body)
  | _ => rfl

/-- Bindings do not begin with a literal, and not like a name that an equals sign follows. -/
theorem BindingTokens.begins {tokens : List Token} {form : ImportForm}
    (h : BindingTokens tokens form) (hpasses : Passes c tokens d)
    (hend : d.token = .word "from".toList) :
    (∀ quote body, c.token ≠ .string quote body) ∧
      ((∀ name, c.token ≠ .word name) ∨ c.next.token ≠ .sign ['=']) := by
  cases h with
  | default =>
    obtain ⟨hname, rfl⟩ := hpasses
    simp [hname, hend]
  | namespaced | named => simp [hpasses.1]
  | defaultNamespaced | defaultNamed => simp [hpasses.1, hpasses.2.1]

theorem ReadsTail.importTail_eq (h : ReadsTail g typeOnly c c' statement) :
    g.importTail typeOnly c = some (some statement, c') := by
  obtain @⟨front, back, form, d, e, quote, body, hclause, hfront, hmodule, hattributes⟩ := h
  cases hclause with
  | effect =>
    cases hfront
    unfold importTail
    rw [peek_bind, hmodule.1]
    exact importedModule_eq_some_iff.mpr ⟨quote, body, e, hmodule, hattributes, rfl⟩
  | require name =>
    rw [importTail_of_ne_string (by simp [hfront.1])]
    have hequals : g.importEquals typeOnly c = some (some ⟨typeOnly, .require name, d.start⟩, c') :=
      importEquals_eq_some_iff.mpr ⟨name, quote, body, d, e, hfront, hmodule, hattributes, rfl⟩
    exact bind_eq_some_iff.mpr ⟨_, c', optional?_eq_some_iff.mpr (.inl ⟨_, rfl, hequals⟩), rfl⟩
  | bindings htokens =>
    obtain ⟨f, hbindings, hfrom⟩ := passes_append.mp hfront
    obtain ⟨hstring, hword⟩ := htokens.begins hbindings hfrom.1
    have hcomma : f.token ≠ .sign [','] := by simp [hfrom.1]
    have hform := (importBindings_eq_some_iff hcomma).mpr ⟨_, htokens, hbindings⟩
    have hnone : g.importEquals typeOnly c = none := importEquals_eq_none hword
    rw [importTail_of_ne_string hstring]
    refine bind_eq_some_iff.mpr
      ⟨none, c, optional?_eq_some_iff.mpr (.inr ⟨rfl, rfl, hnone⟩), ?_⟩
    refine bind_eq_some_iff.mpr ⟨_, _, hform, ?_⟩
    refine bind_eq_some_iff.mpr ⟨(), d, expect_eq_some_iff.mpr hfrom, ?_⟩
    exact importedModule_eq_some_iff.mpr ⟨quote, body, e, hmodule, hattributes, rfl⟩

/-- After a mark no import goes on with a comma, with an equals sign, or with `from` and a
literal. -/
theorem importTail_eq_none (h : c.token = .sign [','] ∨ c.token = .sign ['='] ∨
    c.token = .word "from".toList ∧ ∃ quote body, c.next.token = .string quote body) :
    g.importTail typeOnly c = none := by
  have hstring : ∀ quote body, c.token ≠ .string quote body := by
    rcases h with h | h | ⟨h, -⟩ <;> simp [h]
  have hequals : g.importEquals typeOnly c = none := by
    apply importEquals_eq_none
    rcases h with h | h | ⟨-, quote, body, h⟩ <;> simp [h]
  rw [importTail_of_ne_string hstring, bind_eq_none_iff]
  intro found d hoptional
  obtain ⟨st, -, hsome⟩ | ⟨rfl, rfl, -⟩ := optional?_eq_some_iff.mp hoptional
  · rw [hequals] at hsome
    cases hsome
  refine bind_eq_none_iff.mpr fun form e hform => bind_eq_none_iff.mpr fun _ e' hkeyword => ?_
  have hfrom := (expect_eq_some_iff.mp hkeyword).1
  exfalso
  unfold importBindings acceptSign at hform
  rw [peek_bind] at hform
  rcases h with h | h | ⟨h, quote, body, hmodule⟩
  · rw [h] at hform
    exact failure_eq_some_iff.mp hform
  · rw [h] at hform
    exact failure_eq_some_iff.mp hform
  · rw [h] at hform
    dsimp only at hform
    have hcomma : d.next.token ≠ .sign ",".toList := by simp [hmodule]
    rw [advance_bind, accept_bind_of_ne hcomma] at hform
    obtain ⟨-, rfl⟩ := pure_eq_some_iff.mp hform
    exact Token.noConfusion (hfrom.symm.trans hmodule)

theorem markedTail_of_type (h : c.token = .word "type".toList) :
    g.markedTail c = g.importTail true c.next := by
  unfold markedTail acceptWord
  rw [accept_bind_of_eq h]
  rfl

theorem markedTail_of_typeof (h : c.token = .word "typeof".toList) :
    g.markedTail c = g.importTail false c.next := by
  unfold markedTail acceptWord
  rw [accept_bind_of_ne (by rw [h]; decide), if_neg Bool.false_ne_true, accept_bind_of_eq h]
  rfl

theorem markedTail_of_ne (htype : c.token ≠ .word "type".toList)
    (htypeof : c.token ≠ .word "typeof".toList) : g.markedTail c = none := by
  unfold markedTail acceptWord
  rw [accept_bind_of_ne htype, if_neg Bool.false_ne_true, accept_bind_of_ne htypeof,
    if_neg Bool.false_ne_true]
  rfl

/-- A name with which the bindings begin is not taken for a mark. -/
theorem ReadsTail.markedTail_eq_none (h : ReadsTail g typeOnly c c' statement) :
    g.markedTail c = none := by
  obtain ⟨hclause, hfront, hmodule, -⟩ := h
  have hnext : (∃ name, c.token = .word name) →
      c.next.token = .sign [','] ∨ c.next.token = .sign ['='] ∨
        c.next.token = .word "from".toList ∧
          ∃ quote body, c.next.next.token = .string quote body := by
    rintro ⟨name, hname⟩
    cases hclause with
    | effect =>
      cases hfront
      exact Token.noConfusion (hname.symm.trans hmodule.1)
    | require => exact .inr (.inl hfront.2.1)
    | bindings htokens =>
      obtain ⟨e, hbindings, hfrom, rfl⟩ := passes_append.mp hfront
      cases htokens with
      | default =>
        obtain ⟨-, rfl⟩ := hbindings
        exact .inr (.inr ⟨hfrom, _, _, hmodule.1⟩)
      | namespaced | named => exact Token.noConfusion (hname.symm.trans hbindings.1)
      | defaultNamespaced | defaultNamed => exact .inl hbindings.2.1
  by_cases htype : c.token = .word "type".toList
  · rw [markedTail_of_type htype, importTail_eq_none (hnext ⟨_, htype⟩)]
  by_cases htypeof : c.token = .word "typeof".toList
  · rw [markedTail_of_typeof htypeof, importTail_eq_none (hnext ⟨_, htypeof⟩)]
  exact markedTail_of_ne htype htypeof

/-- An import statement: the tokens before the literal that names the module, whether it is marked
as a type, what it binds, and the tokens behind the literal. -/
inductive ImportTokens : List Token → Bool → ImportForm → List Token → Prop where
  | unmarked {front back : List Token} {form : ImportForm} (h : ClauseTokens front form back) :
    ImportTokens (.word "import".toList :: front) false form back
  | type {front back : List Token} {form : ImportForm} (h : ClauseTokens front form back) :
    ImportTokens (.word "import".toList :: .word "type".toList :: front) true form back
  | typeof {front back : List Token} {form : ImportForm} (h : ClauseTokens front form back) :
    ImportTokens (.word "import".toList :: .word "typeof".toList :: front) false form back

/-- An import statement is read from a cursor on. -/
inductive ReadsImport (g : Grammar) (c c' : Cursor) : ImportStatement → Prop where
  | intro {front back : List Token} {typeOnly : Bool} {form : ImportForm} {d e : Cursor}
    {quote : Char} {body : Text} (htokens : ImportTokens front typeOnly form back)
    (hfront : Passes c front d) (hmodule : Passes d (.string quote body :: back) e)
    (hattributes : g.importAttributesIfAny e = some ((), c')) :
    ReadsImport g c c' ⟨typeOnly, form, d.start⟩

/-- The parser of import statements reads exactly these. -/
theorem importStatement_eq_some_iff :
    g.importStatement c = some (some statement, c') ↔ ReadsImport g c c' statement := by
  unfold importStatement keyword
  simp only [bind_eq_some_iff, expect_eq_some_iff, orElse_eq_some_iff, passes_singleton]
  constructor
  · rintro ⟨_, _, ⟨himport, rfl⟩, h | ⟨-, h⟩⟩
    · by_cases htype : c.next.token = .word "type".toList
      · rw [markedTail_of_type htype] at h
        obtain ⟨hclause, hfront, hmodule, hattributes⟩ := ReadsTail.of_importTail h
        exact .intro (.type hclause) ⟨himport, htype, hfront⟩ hmodule hattributes
      by_cases htypeof : c.next.token = .word "typeof".toList
      · rw [markedTail_of_typeof htypeof] at h
        obtain ⟨hclause, hfront, hmodule, hattributes⟩ := ReadsTail.of_importTail h
        exact .intro (.typeof hclause) ⟨himport, htypeof, hfront⟩ hmodule hattributes
      · rw [markedTail_of_ne htype htypeof] at h
        cases h
    · obtain ⟨hclause, hfront, hmodule, hattributes⟩ := ReadsTail.of_importTail h
      exact .intro (.unmarked hclause) ⟨himport, hfront⟩ hmodule hattributes
  · rintro ⟨htokens, hfront, hmodule, hattributes⟩
    cases htokens with
    | unmarked hclause =>
      have htail : ReadsTail g false c.next c' _ := .intro hclause hfront.2 hmodule hattributes
      exact ⟨(), _, ⟨hfront.1, rfl⟩, .inr ⟨htail.markedTail_eq_none, htail.importTail_eq⟩⟩
    | type hclause =>
      obtain ⟨himport, hmark, hfront⟩ := hfront
      have htail : ReadsTail g true c.next.next c' _ := .intro hclause hfront hmodule hattributes
      exact ⟨(), _, ⟨himport, rfl⟩, .inl ((markedTail_of_type hmark).trans htail.importTail_eq)⟩
    | typeof hclause =>
      obtain ⟨himport, hmark, hfront⟩ := hfront
      have htail : ReadsTail g false c.next.next c' _ := .intro hclause hfront hmodule hattributes
      exact ⟨(), _, ⟨himport, rfl⟩, .inl ((markedTail_of_typeof hmark).trans htail.importTail_eq)⟩

end Tail

section Tokens

variable {tokens front back : List Token} {form : ImportForm} {typeOnly : Bool}

theorem BindingTokens.isImportToken (h : BindingTokens tokens form) :
    ∀ token ∈ tokens, token.IsImportToken := by
  cases h with
  | default | namespaced | defaultNamespaced => simp [Token.IsImportToken, importSigns]
  | named h =>
    rw [List.forall_mem_append, List.forall_mem_cons]
    exact ⟨⟨by simp [Token.IsImportToken, importSigns], h.isImportToken⟩,
      by simp [Token.IsImportToken, importSigns]⟩
  | defaultNamed default h =>
    rw [List.forall_mem_append, List.forall_mem_cons, List.forall_mem_cons, List.forall_mem_cons]
    exact ⟨⟨trivial, by simp [Token.IsImportToken, importSigns],
      by simp [Token.IsImportToken, importSigns], h.isImportToken⟩,
      by simp [Token.IsImportToken, importSigns]⟩

theorem ClauseTokens.isImportToken (h : ClauseTokens front form back) :
    ∀ token ∈ front, token.IsImportToken := by
  cases h with
  | effect => simp
  | require => simp [Token.IsImportToken, importSigns]
  | bindings h =>
    rw [List.forall_mem_append]
    exact ⟨h.isImportToken, by simp [Token.IsImportToken]⟩

theorem ImportTokens.isImportToken (h : ImportTokens front typeOnly form back) :
    ∀ token ∈ front, token.IsImportToken := by
  cases h with
  | unmarked h =>
    rw [List.forall_mem_cons]
    exact ⟨trivial, h.isImportToken⟩
  | type h | typeof h =>
    rw [List.forall_mem_cons, List.forall_mem_cons]
    exact ⟨trivial, trivial, h.isImportToken⟩

/-- Behind the literal that names the module only a parenthesis may stand. -/
theorem ImportTokens.back_cases (h : ImportTokens front typeOnly form back) :
    back = [] ∧ (∀ name, form ≠ .require name) ∨
      back = [.sign [')']] ∧ ∃ name, form = .require name := by
  have hclause {front : List Token} (h : ClauseTokens front form back) :
      back = [] ∧ (∀ name, form ≠ .require name) ∨
        back = [.sign [')']] ∧ ∃ name, form = .require name := by
    cases h with
    | effect => simp
    | require name => simp
    | bindings hbindings =>
      refine .inl ⟨rfl, fun name hform => ?_⟩
      subst hform
      cases hbindings
  cases h with
  | unmarked h | type h | typeof h => exact hclause h

theorem ImportTokens.isImportToken_back (h : ImportTokens front typeOnly form back) :
    ∀ token ∈ back, token.IsImportToken := by
  rcases h.back_cases with ⟨rfl, -⟩ | ⟨rfl, -⟩
  · simp
  · simp [Token.IsImportToken, importSigns]

end Tokens

end Disentangle.TypeScript
