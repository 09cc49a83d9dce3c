import Disentangle.Proofs.TypeScript.Import
import Disentangle.TypeScript.Source

/-!
Import attributes. An object of names and literals is read in the same way in every grammar that is
deep enough for a literal, wherever it stands and whatever follows.
-/

namespace Disentangle.TypeScript

open Disentangle.TypeScript.Parser Grammar

/-- A sign with which no value goes on: it ends a statement, or a place in a list. -/
def Cursor.endsValue (c : Cursor) : Prop :=
  c.token = .sign [','] ∨ c.token = .sign ['\x7d'] ∨ c.token = .sign [';']

section Values

variable {g : Grammar} {c : Cursor} {place : Place} {inHeritage : Bool} {e : Operand}
  {quote : Char} {body : Text}

theorem suffix_eq_none (h : c.endsValue) : g.suffix place inHeritage e c = some (none, c) := by
  obtain ⟨token, start, here, stop, after, previousStop, gap, fresh⟩ := c
  rcases h with h | h | h <;> cases h <;> rfl

theorem operation_eq_none (h : c.endsValue) : g.operation place e c = some (none, c) := by
  obtain ⟨token, start, here, stop, after, previousStop, gap, fresh⟩ := c
  rcases h with h | h | h <;> cases h <;> rfl

theorem primary_string (h : c.token = .string quote body) :
    g.primary c = some (⟨.other, false⟩, c.next) := by
  obtain ⟨token, start, here, stop, after, previousStop, gap, fresh⟩ := c
  cases h
  rfl

theorem arrow?_string (h : c.token = .string quote body) : g.arrow? place c = some (none, c) := by
  obtain ⟨token, start, here, stop, after, previousStop, gap, fresh⟩ := c
  cases h
  rfl

theorem unary_string (h : c.token = .string quote body) (hend : c.next.endsValue) :
    g.unary place c = some (⟨.other, false⟩, c.next) := by
  have hlast : (do extend (← g.primary) (g.suffix place false) : Parser Operand) c =
      some (⟨.other, false⟩, c.next) :=
    bind_eq_some_iff.mpr ⟨_, c.next, primary_string h, extend_eq_self (suffix_eq_none hend)⟩
  unfold unary atWord atSign
  refine bind_eq_some_iff.mpr ⟨none, c, arrow?_string h, ?_⟩
  dsimp only
  rw [peek_bind, h]
  dsimp only
  rw [pure_bind, if_neg Bool.false_ne_true, stands_bind, if_neg (by simp [h]), stands_bind,
    if_neg (by simp [h])]
  exact hlast

theorem wholeExpression_string (h : c.token = .string quote body) (hend : c.next.endsValue) :
    g.wholeExpression place c = some (.other, c.next) := by
  have hmark : c.next.token ≠ .sign "?".toList := by
    rcases hend with hend | hend | hend <;> rw [hend] <;> decide
  unfold wholeExpression acceptSign
  refine bind_eq_some_iff.mpr ⟨_, c.next, unary_string h hend, ?_⟩
  refine bind_eq_some_iff.mpr ⟨_, c.next, extend_eq_self (operation_eq_none hend), ?_⟩
  rw [accept_bind_of_ne hmark, if_neg Bool.false_ne_true]
  rfl

end Values

/-- Import attributes stand here: an object behind `with` or `assert` on the same line. -/
def Cursor.atAttributes (c : Cursor) : Bool :=
  (c.token = .word "with".toList || c.token = .word "assert".toList) && !c.fresh

/-- Whether a token may name an attribute. -/
def Token.isName : Token → Bool
  | .word _ | .string _ _ => true
  | _ => false

theorem ne_sign_of_isName {token : Token} (h : token.isName = true) (symbol : Text) :
    token ≠ .sign symbol := by
  rintro rfl
  cases h

/-- Whether tokens are import attributes and the brace behind them: names with literals, with commas
between them and possibly one at the end. -/
def areAttributes : List Token → Bool
  | [.sign ['\x7d']] => true
  | [name, .sign [':'], .string _ _, .sign ['\x7d']] => name.isName
  | name :: .sign [':'] :: .string _ _ :: .sign [','] :: rest => name.isName && areAttributes rest
  | _ => false

/-- The parser passes over a name, a colon and a literal. -/
def PassesAttribute {α : Type} (item : Parser α) : Prop :=
  ∀ c d name quote body, Token.isName name = true →
    Passes c [name, .sign [':'], .string quote body] d → d.endsValue → ∃ a, item c = some (a, d)

section Attributes

variable {jsx : Bool} {depth n : Nat} {c c' : Cursor} {tokens : List Token}

theorem passesAttribute_property :
    PassesAttribute (ofDepth jsx (depth + 1)).property := by
  rintro c d name quote body hname ⟨hfirst, hcolon, hvalue, rfl⟩ hend
  have hsign (symbol : String) : c.token ≠ .sign symbol.toList :=
    hfirst ▸ ne_sign_of_isName hname _
  -- A word such as `get` is a name where a colon follows.
  have hmodifiers : passModifiers objectModifiers c = some ([], c) := by
    refine many_eq_nil ?_
    rw [peek_bind, hfirst]
    cases name with
    | word name =>
      dsimp only
      split
      · rw [peekNext_bind, hcolon]
        rfl
      · rfl
    | _ => rfl
  have hpropertyName : (ofDepth jsx (depth + 1)).propertyName c = some ((), c.next) := by
    unfold propertyName
    rw [peek_bind, hfirst]
    cases name with
    | word | string => rfl
    | _ => cases hname
  have hexpression : (ofDepth jsx (depth + 1)).expression .enclosed c.next.next =
      some (.other, c.next.next.next) := wholeExpression_string hvalue hend
  refine ⟨.pair .other, ?_⟩
  unfold property acceptSign atWord
  rw [accept_bind_of_ne (hsign _), if_neg Bool.false_ne_true]
  refine bind_eq_some_iff.mpr ⟨[], c, hmodifiers, ?_⟩
  rw [stands_bind, peekNext_bind, if_neg (by simp [hcolon])]
  dsimp only
  rw [accept_bind_of_ne (hsign _), peek_bind]
  refine bind_eq_some_iff.mpr ⟨(), c.next, hpropertyName, ?_⟩
  have htext : ":".toList = [':'] := rfl
  rw [List.isEmpty_nil, Bool.not_false, Bool.and_self, if_pos rfl, htext,
    accept_bind_of_eq hcolon, if_pos rfl]
  exact bind_eq_some_iff.mpr ⟨_, _, hexpression, rfl⟩

theorem PassesAttribute.sparse {α : Type} {item : Parser α} (h : PassesAttribute item) :
    PassesAttribute (do
      if ← atSign "," then return none else return some (← item) : Parser (Option α)) := by
  intro c d name quote body hname hpasses hend
  obtain ⟨a, ha⟩ := h c d name quote body hname hpasses hend
  refine ⟨some a, ?_⟩
  have hsign : c.token ≠ .sign [','] := by
    rw [hpasses.1]
    exact ne_sign_of_isName hname _
  change (stands (.sign [',']) >>= _) c = _
  rw [stands_bind, if_neg (by simp [hsign])]
  exact bind_eq_some_iff.mpr ⟨a, d, ha, rfl⟩

/-- An attribute is passed with the comma behind it, or before the brace. -/
theorem PassesAttribute.separatedItem_eq {α : Type} {item : Parser α} (hitem : PassesAttribute item)
    {d e : Cursor} {name : Token} {quote : Char} {body : Text} (hname : name.isName = true)
    (hpasses : Passes c [name, .sign [':'], .string quote body] d)
    (hnext : d.token = .sign [','] ∧ e = d.next ∨ d.token = .sign ['\x7d'] ∧ e = d) :
    ∃ a, separatedItem "\x7d" item c = some (some a, e) := by
  obtain ⟨a, ha⟩ := hitem c d name quote body hname hpasses
    (hnext.imp And.left fun h => .inl h.1)
  have hstart : c.token ≠ .sign ['\x7d'] := by
    rw [hpasses.1]
    exact ne_sign_of_isName hname _
  exact ⟨a, separatedItem_eq_some_iff.mpr (.inr ⟨hstart, a, d, ha, rfl, hnext⟩)⟩

theorem PassesAttribute.collect_eq {α : Type} {item : Parser α} (hitem : PassesAttribute item)
    (h : areAttributes tokens = true) (hpasses : Passes c tokens c') (hlength : tokens.length ≤ n) :
    ∃ found d, collect (separatedItem "\x7d" item) n c = some (found, d) ∧
      Passes d [.sign ['\x7d']] c' := by
  have hclose {c : Cursor} {n : Nat} (h : c.token = .sign ['\x7d']) :
      collect (separatedItem "\x7d" item) (n + 1) c = some ([], c) :=
    bind_eq_some_iff.mpr ⟨none, c, separatedItem_eq_some_iff.mpr (.inl ⟨h, rfl, rfl⟩), rfl⟩
  have hfront {name : Token} {quote : Char} {body : Text} {rest : List Token} {c : Cursor} :
      Passes c (name :: .sign [':'] :: .string quote body :: rest) c' →
        ∃ d, Passes c [name, .sign [':'], .string quote body] d ∧ Passes d rest c' :=
    fun ⟨hname, hcolon, hvalue, hrest⟩ => ⟨_, ⟨hname, hcolon, hvalue, rfl⟩, hrest⟩
  have hcons {c d : Cursor} {n : Nat} {a : α} {found : List α} {e : Cursor}
      (ha : separatedItem "\x7d" item c = some (some a, d))
      (hfound : collect (separatedItem "\x7d" item) n d = some (found, e)) :
      collect (separatedItem "\x7d" item) (n + 1) c = some (a :: found, e) :=
    bind_eq_some_iff.mpr ⟨some a, d, ha, bind_eq_some_iff.mpr ⟨found, e, hfound, rfl⟩⟩
  fun_induction areAttributes tokens generalizing c n with
  | case1 =>
    obtain ⟨n, rfl⟩ := Nat.exists_eq_add_of_le' hlength
    exact ⟨[], c, hclose hpasses.1, hpasses⟩
  | case2 name quote body =>
    obtain ⟨n, rfl⟩ := Nat.exists_eq_add_of_le' hlength
    obtain ⟨d, hfirst, hlast⟩ := hfront hpasses
    obtain ⟨a, ha⟩ := hitem.separatedItem_eq h hfirst (.inr ⟨hlast.1, rfl⟩)
    exact ⟨[a], d, hcons ha (hclose hlast.1), hlast⟩
  | case3 name quote body rest ih =>
    obtain ⟨hname, hrest⟩ := Bool.and_eq_true_iff.mp h
    obtain ⟨n, rfl⟩ := Nat.exists_eq_add_of_le' hlength
    obtain ⟨d, hfirst, hcomma, hlater⟩ := hfront hpasses
    obtain ⟨a, ha⟩ := hitem.separatedItem_eq hname hfirst (.inl ⟨hcomma, rfl⟩)
    obtain ⟨found, e, hfound, hlast⟩ := ih (n := n + rest.length + 3) hrest hlater (by omega)
    exact ⟨a :: found, e, hcons ha hfound, hlast⟩
  | case4 => cases h

theorem isImportToken_of_areAttributes (h : areAttributes tokens = true) :
    ∀ token ∈ tokens, token.IsImportToken := by
  have hname {name : Token} (h : name.isName = true) : name.IsImportToken := by
    cases name with
    | word | string => trivial
    | _ => cases h
  fun_induction areAttributes tokens with
  | case1 => simp [Token.IsImportToken, importSigns]
  | case2 name quote body =>
    simp only [List.forall_mem_cons]
    exact ⟨hname h, by simp [Token.IsImportToken, importSigns], trivial,
      by simp [Token.IsImportToken, importSigns], by simp⟩
  | case3 name quote body rest ih =>
    obtain ⟨hfirst, hrest⟩ := Bool.and_eq_true_iff.mp h
    simp only [List.forall_mem_cons]
    exact ⟨hname hfirst, by simp [Token.IsImportToken, importSigns], trivial,
      by simp [Token.IsImportToken, importSigns], ih hrest⟩
  | case4 => cases h

theorem getLast?_of_areAttributes (h : areAttributes tokens = true) :
    tokens.getLast? = some (.sign ['\x7d']) := by
  fun_induction areAttributes tokens with
  | case1 | case2 => rfl
  | case3 name quote body rest ih =>
    rw [List.getLast?_cons_cons, List.getLast?_cons_cons, List.getLast?_cons_cons,
      List.getLast?_cons, ih (Bool.and_eq_true_iff.mp h).2]
    rfl
  | case4 => cases h

theorem object_attributes {p : Nat} {t : Text} (h : areAttributes tokens = true)
    (hpasses : Passes (Cursor.reading p t) (.sign ['\x7b'] :: tokens) c') :
    ∃ e, (ofDepth jsx (depth + 1)).object (Cursor.reading p t) = some (e, c') := by
  obtain ⟨hopen, hpasses⟩ := hpasses
  have hproperty : PassesAttribute (ofDepth jsx (depth + 1)).property := passesAttribute_property
  -- Every token takes a character, so the bound on their number is not reached.
  obtain ⟨found, d, hfound, hclose⟩ := hproperty.sparse.collect_eq h hpasses
    (n := (Cursor.reading p t).next.here.length + 2)
    ((Passes.length_le hpasses (isImportToken_of_areAttributes h)).trans (Nat.le_add_right _ _))
  refine ⟨.object (found.filterMap id), ?_⟩
  refine bind_eq_some_iff.mpr ⟨(), _, expect_eq_some_iff.mpr ⟨hopen, rfl⟩, ?_⟩
  refine bind_eq_some_iff.mpr ⟨_, c', ?_, rfl⟩
  refine bind_eq_some_iff.mpr ⟨found, c', ?_, rfl⟩
  refine bind_eq_some_iff.mpr ⟨found, d, hfound, ?_⟩
  exact bind_eq_some_iff.mpr ⟨(), c', expect_eq_some_iff.mpr hclose, rfl⟩

theorem importAttributesIfAny_of_not {g : Grammar} (h : c.atAttributes = false) :
    g.importAttributesIfAny c = some ((), c) := by
  unfold importAttributesIfAny
  by_cases hword : ∃ name ∈ ["with", "assert"].map String.toList, c.token = .word name
  · obtain ⟨name, hname, hword⟩ := hword
    have hfresh : c.fresh = true := by
      simp only [List.map_cons, List.map_nil, List.mem_cons, List.not_mem_nil, or_false] at hname
      rcases hname with rfl | rfl <;> simpa [Cursor.atAttributes, hword] using h
    rw [atAnyWord_bind_of_word hword, if_pos (List.contains_iff_mem.mpr hname)]
    change (if !c.fresh then _ else pure () : Parser Unit) c = _
    rw [hfresh]
    rfl
  · have hnone : ∀ name ∈ ["with", "assert"].map String.toList, c.token ≠ .word name :=
      fun name hname htoken => hword ⟨name, hname, htoken⟩
    rw [atAnyWord_bind_of_ne hnone]
    rfl

theorem exists_word_of_atAttributes (h : c.atAttributes = true) :
    ∃ name ∈ ["with", "assert"].map String.toList, c.token = .word name ∧ c.fresh = false := by
  simp only [Cursor.atAttributes, Bool.and_eq_true, Bool.or_eq_true, decide_eq_true_eq,
    Bool.not_eq_true'] at h
  obtain ⟨hword | hword, hfresh⟩ := h
  · exact ⟨_, by simp, hword, hfresh⟩
  · exact ⟨_, by simp, hword, hfresh⟩

/-- Import attributes and their object. -/
theorem importAttributesIfAny_of_areAttributes {p : Nat} {t : Text} {word : Token}
    (hattributes : (Cursor.reading p t).atAttributes = true) (h : areAttributes tokens = true)
    (hpasses : Passes (Cursor.reading p t) (word :: .sign ['\x7b'] :: tokens) c') :
    (ofDepth jsx (depth + 1)).importAttributesIfAny (Cursor.reading p t) = some ((), c') := by
  obtain ⟨-, hpasses⟩ := hpasses
  obtain ⟨e, he⟩ : ∃ e, (ofDepth jsx (depth + 1)).object (Cursor.reading p t).next = some (e, c') :=
    object_attributes h hpasses
  obtain ⟨name, hname, hword, hfresh⟩ := exists_word_of_atAttributes hattributes
  unfold importAttributesIfAny
  rw [atAnyWord_bind_of_word hword, if_pos (List.contains_iff_mem.mpr hname)]
  change (if !(Cursor.reading p t).fresh then _ else pure () : Parser Unit) _ = _
  rw [hfresh]
  exact bind_eq_some_iff.mpr ⟨(), _, rfl, discard_eq_some_iff.mpr ⟨e, he⟩⟩

end Attributes

/-- The next tokens up to a closing brace, at most `n` of them, and the cursor behind them. -/
def Cursor.upToBrace : Nat → Cursor → List Token × Cursor
  | 0, c => ([], c)
  | n + 1, c =>
    if c.token = .sign ['\x7d'] then ([c.token], c.next)
    else
      let (tokens, d) := c.next.upToBrace n
      (c.token :: tokens, d)

/-- No import attributes stand here, or an object of names and literals. -/
def Cursor.hasPlainAttributes (c : Cursor) : Bool :=
  !c.atAttributes ||
    c.next.token = .sign ['\x7b'] && areAttributes (c.next.next.upToBrace c.here.length).1

/-- The text spells import attributes, or nothing, where `rest` follows. -/
inductive SpellsAttributes (rest : Text) : Text → Prop where
  | absent (h : (Cursor.reading 0 rest).atAttributes = false) : SpellsAttributes rest []
  | object {t : Text} {word : Token} {tokens : List Token}
      (h : Spells rest t (word :: .sign ['\x7b'] :: tokens))
      (hword : (Cursor.reading 0 (t ++ rest)).atAttributes = true)
      (htokens : areAttributes tokens = true) : SpellsAttributes rest t

section Spelling

variable {jsx : Bool} {depth n p : Nat} {c c' : Cursor} {t rest rest' : Text} {token : Token}
  {tokens : List Token}

theorem passes_upToBrace : Passes c (c.upToBrace n).1 (c.upToBrace n).2 := by
  fun_induction Cursor.upToBrace n c with
  | case1 => rfl
  | case2 => exact ⟨rfl, rfl⟩
  | case3 n c hbrace tokens d heq ih =>
    rw [heq] at ih
    exact ⟨rfl, ih⟩

theorem exists_tokens_of_hasPlainAttributes (hplain : c.hasPlainAttributes = true)
    (h : c.atAttributes = true) : ∃ name tokens c', areAttributes tokens = true ∧
      Passes c (.word name :: .sign ['\x7b'] :: tokens) c' := by
  simp only [Cursor.hasPlainAttributes, h, Bool.not_true, Bool.false_or, Bool.and_eq_true,
    decide_eq_true_eq] at hplain
  obtain ⟨hopen, htokens⟩ := hplain
  obtain ⟨name, -, hword, -⟩ := exists_word_of_atAttributes h
  exact ⟨name, _, _, htokens, hword, hopen, passes_upToBrace⟩

/-- A text that spells tokens begins like them, whatever follows. -/
theorem Spells.atAttributes_eq (h : Spells rest t (token :: tokens))
    (h' : Spells rest' t (token :: tokens)) :
    (Cursor.reading p (t ++ rest)).atAttributes = (Cursor.reading p (t ++ rest')).atAttributes := by
  have hfresh : (Cursor.reading p (t ++ rest)).fresh = (Cursor.reading p (t ++ rest')).fresh := by
    cases h with
    | @cons breaks gap later _ _ hgap hplain hends =>
      have hbegins (rest' : Text) : Begins (token.text ++ later ++ rest') := by
        have hbegins := begins_of_readToken (readToken_plain hplain hends) hplain.isImportToken
        intro c hc
        refine hbegins c ?_
        obtain ⟨first, more, htext⟩ := List.exists_cons_of_ne_nil hplain.text_ne_nil
        rw [htext] at hc ⊢
        exact hc
      simp only [List.append_assoc gap, reading_trivia hgap, reading_begins (hbegins _)]
  unfold Cursor.atAttributes
  rw [(h.passes (p := p)).1, (h'.passes (p := p)).1, hfresh]

/-- Attributes are spelled by a text whatever follows. -/
theorem SpellsAttributes.before (h : SpellsAttributes rest t)
    (hnone : t = [] → (Cursor.reading 0 rest').atAttributes = false) :
    SpellsAttributes rest' t := by
  cases h with
  | absent => exact .absent (hnone rfl)
  | object h hword htokens =>
    have hlast := getLast?_of_areAttributes htokens
    have h' : Spells rest' t _ := h.before fun token htoken => by
      rw [List.getLast?_cons_cons, List.getLast?_cons, hlast] at htoken
      cases htoken
      exact fun _ _ => rfl
    exact .object h' ((h'.atAttributes_eq h).trans hword) htokens

/-- Plain attributes are read in every grammar that is deep enough for a literal. -/
theorem SpellsAttributes.importAttributesIfAny (h : SpellsAttributes rest t) (jsx : Bool)
    (depth : Nat) :
    (ofDepth jsx (depth + 1)).importAttributesIfAny (Cursor.reading p (t ++ rest)) =
      some ((), Cursor.reading (p + t.length) rest) := by
  cases h with
  | absent h => exact importAttributesIfAny_of_not h
  | object h hword htokens =>
    exact importAttributesIfAny_of_areAttributes hword htokens h.passes

theorem exists_spellsAttributes (hplain : (Cursor.reading p t).hasPlainAttributes = true)
    (hread : (ofDepth jsx (depth + 1)).importAttributesIfAny (Cursor.reading p t) =
      some ((), c')) :
    ∃ front rest, t = front ++ rest ∧ c' = Cursor.reading (p + front.length) rest ∧
      ((Cursor.reading p t).atAttributes = false → front = []) ∧
      ('\\' ∉ front → rest.head? ≠ some '\\' → SpellsAttributes rest front) := by
  cases hattributes : (Cursor.reading p t).atAttributes with
  | false =>
    rw [importAttributesIfAny_of_not hattributes] at hread
    cases hread
    exact ⟨[], t, rfl, rfl, fun _ => rfl, fun _ _ => .absent hattributes⟩
  | true =>
    obtain ⟨name, tokens, d, htokens, hpasses⟩ :=
      exists_tokens_of_hasPlainAttributes hplain hattributes
    rw [importAttributesIfAny_of_areAttributes hattributes htokens hpasses] at hread
    cases hread
    obtain ⟨front, rest, rfl, rfl, hspells⟩ := exists_of_passes hpasses (by
      simp only [List.forall_mem_cons]
      exact ⟨trivial, by simp [Token.IsImportToken, importSigns],
        isImportToken_of_areAttributes htokens⟩)
    exact ⟨front, rest, rfl, rfl, fun h => absurd h (by simp), fun hescape hrest =>
      .object (hspells hescape hrest) hattributes htokens⟩

theorem spellsAttributes_nil_iff :
    SpellsAttributes rest [] ↔ (Cursor.reading 0 rest).atAttributes = false := by
  constructor
  · intro h
    generalize ht : ([] : Text) = t at h
    cases h with
    | absent h => exact h
    | object h =>
      subst ht
      have hle := h.length_le
      simp at hle
  · exact .absent

theorem SpellsAttributes.getLast? (h : SpellsAttributes rest t) :
    t = [] ∨ ∃ front, t = front ++ ['\x7d'] := by
  cases h with
  | absent => exact .inl rfl
  | object h _ htokens =>
    have hlast := getLast?_of_areAttributes htokens
    have hfront : ∃ front, t = front ++ (Token.sign ['\x7d']).text :=
      h.exists_last (by rw [List.getLast?_cons_cons, List.getLast?_cons, hlast]; rfl)
    exact .inr hfront

end Spelling

end Disentangle.TypeScript
