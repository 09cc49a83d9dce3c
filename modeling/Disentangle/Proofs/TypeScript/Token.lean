import Disentangle.Proofs.TypeScript.Trivia

/-!
The tokens that import statements are made of: words, quoted literals and a few signs. The text of
such a token is read as this token wherever it stands, provided that the text behind it does not
go on with the token; and what is read as such a token is its text.
-/

namespace Disentangle.TypeScript

/-- A word without escapes. -/
def isWord : Text → Bool
  | [] => false
  | c :: rest => isWordStart c && rest.all isWordPart

/-- The signs that stand in import statements. -/
def importSigns : List Text :=
  [['\x7b'], ['\x7d'], [','], ['*'], ['='], ['('], [')'], [';'], [':']]

namespace Token

/-- How a word, a literal or a sign is written. -/
def text : Token → Text
  | .word name => name
  | .string quote body => quote :: body ++ [quote]
  | .sign symbol => symbol
  | _ => []

/-- A token that may stand in an import statement. -/
def IsImportToken : Token → Prop
  | .word _ | .string _ _ => True
  | .sign symbol => symbol ∈ importSigns
  | _ => False

/-- A token of an import statement as it is written without escapes. -/
def IsPlain : Token → Prop
  | .word name => isWord name = true
  | .string quote body => (quote = '"' ∨ quote = '\'') ∧
      ∀ c ∈ body, c ≠ quote ∧ c ≠ '\\' ∧ c ≠ '\n' ∧ c ≠ '\r'
  | .sign symbol => symbol ∈ importSigns
  | _ => False

/-- Whether the character `c` behind a token would belong to it. -/
def goesOn : Token → Char → Bool
  | .word _, c => isWordPart c || c = '\\'
  | .sign ['*'], c => c = '*' || c = '='
  | .sign ['='], c => c = '=' || c = '>'
  | _, _ => false

/-- The token does not go on in `rest`. -/
def EndsBefore (token : Token) (rest : Text) : Prop :=
  ∀ c ∈ rest.head?, token.goesOn c = false

theorem EndsBefore.of_head {token : Token} {rest rest' : Text} (h : token.EndsBefore rest)
    (hhead : rest'.head? = rest.head?) : token.EndsBefore rest' := by
  rwa [EndsBefore, hhead]

end Token

section Names

variable {n : Nat} {t name body after rest : Text} {quote c : Char}

theorem isWordPart_of_stops (h : stops.contains c = true) : isWordPart c = false := by
  rw [isWordPart, h]
  simp

theorem readName_word (hname : name.all isWordPart = true) (hn : name.length ≤ n)
    (hrest : ∀ c ∈ rest.head?, isWordPart c = false ∧ c ≠ '\\') :
    readName n (name ++ rest) = (name, rest) := by
  induction name generalizing n with
  | nil =>
    match n, rest, hrest with
    | 0, _, _ => rfl
    | _ + 1, [], _ => rfl
    | _ + 1, c :: rest, hrest =>
      obtain ⟨hc, hescape⟩ := hrest c rfl
      rw [List.nil_append, readName, if_neg (by simp [hc]), if_neg (by simp [hescape])]
  | cons c name ih =>
    rw [List.all_cons, Bool.and_eq_true] at hname
    rw [List.length_cons] at hn
    obtain ⟨n, rfl⟩ := Nat.exists_eq_add_one_of_ne_zero (by omega : n ≠ 0)
    rw [List.cons_append, readName, if_pos hname.1, ih hname.2 (by omega)]

theorem readString_plain (hbody : ∀ c ∈ body, c ≠ quote ∧ c ≠ '\\' ∧ c ≠ '\n' ∧ c ≠ '\r')
    (hn : body.length < n) : readString quote n (body ++ quote :: rest) = some (body, rest) := by
  obtain ⟨n, rfl⟩ := Nat.exists_eq_add_one_of_ne_zero (by omega : n ≠ 0)
  induction body generalizing n with
  | nil => rw [List.nil_append, readString, if_pos rfl]
  | cons c body ih =>
    obtain ⟨⟨hquote, hescape, hfeed, hreturn⟩, hbody⟩ := List.forall_mem_cons.mp hbody
    rw [List.length_cons] at hn
    obtain ⟨n, rfl⟩ := Nat.exists_eq_add_one_of_ne_zero (by omega : n ≠ 0)
    rw [List.cons_append, readString, if_neg hquote, if_neg hescape,
      if_neg (by simp [hfeed, hreturn]), ih hbody n (by omega)]

theorem take_append_of_suffix (h : after <:+ t) :
    t.take (t.length - after.length) ++ after = t := by
  obtain ⟨front, rfl⟩ := h
  simp

theorem dropHex?_suffix {count : Nat} (h : dropHex? count t = some after) : after <:+ t := by
  rw [dropHex?] at h
  split at h
  · cases h
    exact List.drop_suffix count t
  · cases h

theorem dropEscape?_suffix (h : dropEscape? t = some after) : after <:+ t := by
  unfold dropEscape? at h
  split at h
  · cases h
  · exact (dropHex?_suffix h).trans (List.suffix_cons _ _)
  · dsimp only at h
    split at h
    next hhex =>
      split at h
      · cases h
      · cases h
        have hsuffix := (List.suffix_cons _ _).trans (dropHex?_suffix hhex)
        exact (hsuffix.trans (List.suffix_cons _ _)).trans (List.suffix_cons _ _)
    next => cases h
  · exact (dropHex?_suffix h).trans (List.suffix_cons _ _)
  · cases h
    exact (List.suffix_cons _ _).trans (List.suffix_cons _ _)
  · cases h
    exact List.suffix_cons _ _

/-- A name is written as it is read. -/
theorem readName_append (h : readName n t = (name, after)) : name ++ after = t := by
  fun_induction readName n t generalizing name after with
  | case1 | case2 | case5 | case6 =>
    cases h
    rfl
  | case3 n c rest hc name' after' hname ih =>
    cases h
    rw [List.cons_append, ih hname]
  | case4 n c rest hc hescape behind hbehind name' after' hname ih =>
    cases h
    rw [List.cons_append, List.cons_append, List.append_assoc, ih hname,
      take_append_of_suffix (dropEscape?_suffix hbehind)]

/-- A name without escapes consists of the word parts up to something else. -/
theorem readName_plain (h : readName n t = (name, after)) (hn : t.length ≤ n)
    (hname : '\\' ∉ name) :
    name.all isWordPart = true ∧ ∀ c ∈ after.head?, isWordPart c = false := by
  fun_induction readName n t generalizing name after with
  | case1 t =>
    cases h
    have ht : t = [] := List.eq_nil_of_length_eq_zero (by omega)
    simp [ht]
  | case2 =>
    cases h
    simp
  | case3 n c rest hc name' after' hread ih =>
    cases h
    rw [List.mem_cons, not_or] at hname
    obtain ⟨hall, hafter⟩ := ih hread (by simpa using hn) hname.2
    exact ⟨by simp [hc, hall], hafter⟩
  | case4 n c rest hc hescape =>
    cases h
    simp [hescape.1] at hname
  | case5 n c rest hc | case6 n c rest hc =>
    cases h
    simpa using hc

/-- The body of a literal is written as it is read. -/
theorem readString_append (h : readString quote n t = some (body, after)) :
    body ++ quote :: after = t := by
  fun_induction readString quote n t generalizing body after with
  | case1 | case2 | case5 | case6 | case7 | case9 => cases h
  | case3 =>
    cases h
    rfl
  | case4 n rest behind hbehind body' later hbody hquote ih =>
    cases h
    rw [List.cons_append, List.cons_append, List.append_assoc, ih hbody,
      take_append_of_suffix (dropEscape?_suffix hbehind)]
  | case8 n c rest _ _ _ body' later hbody ih =>
    cases h
    rw [List.cons_append, ih hbody]

theorem readString_plain_of_eq (h : readString quote n t = some (body, after))
    (hbody : '\\' ∉ body) : ∀ c ∈ body, c ≠ quote ∧ c ≠ '\\' ∧ c ≠ '\n' ∧ c ≠ '\r' := by
  fun_induction readString quote n t generalizing body after with
  | case1 | case2 | case5 | case6 | case7 | case9 => cases h
  | case3 =>
    cases h
    simp
  | case4 =>
    cases h
    simp at hbody
  | case8 n c rest hquote hescape hbreak body' later hread ih =>
    cases h
    rw [List.mem_cons, not_or] at hbody
    rw [List.forall_mem_cons]
    refine ⟨⟨hquote, hescape, ?_⟩, ih hread hbody.2⟩
    simpa using hbreak

end Names

section Signs

variable {t symbol rest : Text} {c : Char}

theorem two_le_length_of_mem_longSigns (h : symbol ∈ longSigns) : 2 ≤ symbol.length := by
  revert symbol
  decide

/-- The signs of import statements are single characters that begin no other kind of token. -/
theorem exists_of_mem_importSigns (h : symbol ∈ importSigns) :
    ∃ c, symbol = [c] ∧ stops.contains c = true ∧ c.isDigit = false ∧
      ∀ d ∈ "\\\"'`#.?".toList, c ≠ d := by
  simp only [importSigns, List.mem_cons, List.not_mem_nil, or_false] at h
  have hother {c : Char} (hc : c ∉ "\\\"'`#.?".toList) : ∀ d ∈ "\\\"'`#.?".toList, c ≠ d :=
    fun d hd heq => hc (heq ▸ hd)
  rcases h with rfl | rfl | rfl | rfl | rfl | rfl | rfl | rfl | rfl <;>
    exact ⟨_, rfl, by decide, by decide, hother (by decide)⟩

/-- Where a longer sign begins, the sign that it begins with would go on. -/
theorem goesOn_of_mem_longSigns : ∀ s ∈ longSigns, ∀ symbol ∈ importSigns, s.take 1 = symbol →
    ∃ d ∈ (s.drop 1).head?, (Token.sign symbol).goesOn d = true := by
  have hany : ∀ s ∈ longSigns, ∀ symbol ∈ importSigns, s.take 1 = symbol →
      (s.drop 1).head?.any (Token.sign symbol).goesOn = true := by
    simp only [longSigns, importSigns]
    decide
  intro s hs symbol hsymbol htake
  exact (Option.any_eq_true _ _).mp (hany s hs symbol hsymbol htake)

theorem mem_longSigns_of_goesOn {d : Char} (h : (Token.sign [c]).goesOn d = true) :
    [c, d] ∈ longSigns := by
  by_cases hstar : c = '*'
  · subst hstar
    simp only [Token.goesOn, Bool.or_eq_true, decide_eq_true_eq] at h
    rcases h with rfl | rfl <;> decide
  by_cases hequal : c = '='
  · subst hequal
    simp only [Token.goesOn, Bool.or_eq_true, decide_eq_true_eq] at h
    rcases h with rfl | rfl <;> decide
  · simp [Token.goesOn, hstar, hequal] at h

theorem isWordStart_of_stops (h : stops.contains c = true) : isWordStart c = false := by
  rw [isWordStart, isWordPart_of_stops h, Bool.false_and]

/-- The sign at the front of a text is its first character where no longer sign begins. -/
theorem readSign_single (hstops : stops.contains c = true)
    (hquote : "\\\"'`".toList.contains c = false)
    (hlong : ∀ s ∈ longSigns, s.isPrefixOf (c :: rest) = false) :
    readSign (c :: rest) = some [c] := by
  have hnone : longSigns.find? (·.isPrefixOf (c :: rest)) = none := by
    rw [List.find?_eq_none]
    intro s hs
    rw [hlong s hs]
    exact Bool.false_ne_true
  rw [readSign, hnone]
  simp only [hstops, hquote, Bool.not_false, Bool.and_self, if_true]

/-- A sign of one character is read only where no longer sign begins. -/
theorem of_readSign_single (h : readSign t = some [c]) (hne : c ≠ '?') :
    (∃ rest, t = c :: rest) ∧ ∀ s ∈ longSigns, s.isPrefixOf t = false := by
  unfold readSign at h
  split at h
  next sign hfind =>
    have hlong := two_le_length_of_mem_longSigns (List.mem_of_find?_eq_some hfind)
    split at h
    · cases h
      exact absurd rfl hne
    · cases h
      simp at hlong
  next hfind =>
    rw [List.find?_eq_none] at hfind
    split at h
    · split at h
      · cases h
        exact ⟨⟨_, rfl⟩, fun s hs => Bool.eq_false_iff.mpr (hfind s hs)⟩
      · cases h
    · cases h

/-- A sign does not go on exactly when no longer sign begins where it stands. -/
theorem endsBefore_sign_iff (hsymbol : [c] ∈ importSigns) :
    (Token.sign [c]).EndsBefore rest ↔ ∀ s ∈ longSigns, s.isPrefixOf (c :: rest) = false := by
  constructor
  · intro hends s hs
    rw [Bool.eq_false_iff]
    intro hbegins
    obtain ⟨later, hlater⟩ := List.isPrefixOf_iff_prefix.mp hbegins
    match s, hlater with
    | [], _ => exact absurd (two_le_length_of_mem_longSigns hs) (by simp)
    | c' :: s, hlater =>
      obtain ⟨rfl, rfl⟩ := List.cons.inj hlater
      obtain ⟨d, hd, hgoes⟩ := goesOn_of_mem_longSigns _ hs [c'] hsymbol rfl
      have hhead : d ∈ (s ++ later).head? := by
        rw [List.head?_append]
        simp only [List.drop_succ_cons, List.drop_zero, Option.mem_def] at hd
        simp [hd]
      rw [hends d hhead] at hgoes
      cases hgoes
  · intro hlong d hd
    rw [Bool.eq_false_iff]
    intro hgoes
    have hnone := hlong _ (mem_longSigns_of_goesOn hgoes)
    obtain ⟨later, rfl⟩ := List.head?_eq_some_iff.mp hd
    simp at hnone

end Signs

section Tokens

variable {t rest after : Text} {token : Token} {c : Char}

theorem readToken_word {name : Text} (hstart : isWordStart c = true)
    (hread : readName (c :: rest).length (c :: rest) = (c :: name, after)) :
    readToken (c :: rest) = (.word (c :: name), after) := by
  rw [readToken, if_pos (by simp [hstart]), hread]

theorem readToken_string {body : Text} (hquote : c = '"' ∨ c = '\'')
    (hread : readString c rest.length.succ rest = some (body, after)) :
    readToken (c :: rest) = (.string c body, after) := by
  have hstops : stops.contains c = true := by
    rcases hquote with rfl | rfl <;> decide
  have hchar : (c = '\\' ∨ c = '.' ∨ c.isDigit = true) = False := by
    rcases hquote with rfl | rfl <;> decide
  have hquote' : (c = '"' || c = '\'') = true := by simpa using hquote
  simp only [eq_iff_iff, iff_false, not_or, Bool.not_eq_true] at hchar
  obtain ⟨hescape, hpoint, hdigit⟩ := hchar
  rw [readToken, if_neg (by simp [isWordStart_of_stops hstops, hescape]),
    if_neg (by simp [hdigit, hpoint]), if_pos hquote', hread]

/-- A sign of an import statement is read where no longer sign begins. -/
theorem readToken_sign (hsign : [c] ∈ importSigns)
    (hlong : ∀ s ∈ longSigns, s.isPrefixOf (c :: rest) = false) :
    readToken (c :: rest) = (.sign [c], rest) := by
  obtain ⟨_, hc, hstops, hdigit, hother⟩ := exists_of_mem_importSigns hsign
  cases hc
  have hread : readSign (c :: rest) = some [c] :=
    readSign_single hstops (by simp [hother '\\' (by decide), hother '"' (by decide),
      hother '\'' (by decide), hother '`' (by decide)]) hlong
  rw [readToken, if_neg (by simp [isWordStart_of_stops hstops, hother '\\' (by decide)]),
    if_neg (by simp [hdigit, hother '.' (by decide)]),
    if_neg (by simp [hother '"' (by decide), hother '\'' (by decide)]),
    if_neg (by simp [hother '`' (by decide)]),
    if_neg (by simp [hother '#' (by decide)]), hread]
  rfl

/-- A plain token is read where it is written. -/
theorem readToken_plain (hplain : token.IsPlain) (hends : token.EndsBefore rest) :
    readToken (token.text ++ rest) = (token, rest) := by
  match token, hplain with
  | .word (c :: name), hword =>
    rw [Token.IsPlain, isWord, Bool.and_eq_true] at hword
    obtain ⟨hstart, hname⟩ := hword
    have hread : readName (c :: name ++ rest).length (c :: name ++ rest) = (c :: name, rest) := by
      apply readName_word
      · rw [isWordStart, Bool.and_eq_true] at hstart
        simp [hstart.1, hname]
      · simp
      · simpa [Token.EndsBefore, Token.goesOn] using hends
    exact readToken_word hstart hread
  | .string quote body, ⟨hquote, hbody⟩ =>
    have hread : readString quote (body ++ quote :: rest).length.succ (body ++ quote :: rest) =
        some (body, rest) :=
      readString_plain hbody (by simp only [List.length_append, List.length_cons]; omega)
    have hwhole : Token.text (.string quote body) ++ rest = quote :: (body ++ quote :: rest) := by
      simp [Token.text]
    rw [hwhole, readToken_string hquote hread]
  | .sign symbol, hsign =>
    obtain ⟨c, rfl, -⟩ := exists_of_mem_importSigns hsign
    exact readToken_sign hsign ((endsBefore_sign_iff hsign).mp hends)

theorem of_readToken_word {name : Text} (h : readToken t = (.word name, after)) :
    name ≠ [] ∧ readName t.length t = (name, after) ∧
      ∀ c ∈ t.head?, isWordStart c = true ∨ c = '\\' := by
  unfold readToken at h
  repeat' split at h
  all_goals cases h
  next c rest hstart _ hne hread =>
    refine ⟨hne, hread, ?_⟩
    intro d hd
    cases hd
    rw [Bool.or_eq_true, Bool.and_eq_true, decide_eq_true_eq] at hstart
    exact hstart.imp_right And.left

theorem of_readToken_string {quote : Char} {body : Text}
    (h : readToken t = (.string quote body, after)) :
    (quote = '"' ∨ quote = '\'') ∧
      ∃ rest, t = quote :: rest ∧ readString quote rest.length.succ rest = some (body, after) := by
  unfold readToken at h
  repeat' split at h
  all_goals cases h
  next rest _ _ _ hquote hread => exact ⟨by simpa using hquote, rest, rfl, hread⟩

theorem of_readToken_sign {symbol : Text} (h : readToken t = (.sign symbol, after)) :
    readSign t = some symbol ∧ after = t.drop symbol.length := by
  unfold readToken at h
  repeat' split at h
  all_goals cases h
  next hread => exact ⟨hread, rfl⟩

/-- What is read as a token of an import statement is the text of that token. -/
theorem readToken_append (h : readToken t = (token, after)) (htoken : token.IsImportToken) :
    token.text ≠ [] ∧ token.text ++ after = t := by
  match token, htoken with
  | .word name, _ =>
    obtain ⟨hne, hread, -⟩ := of_readToken_word h
    exact ⟨hne, readName_append hread⟩
  | .string quote body, _ =>
    obtain ⟨-, rest, rfl, hread⟩ := of_readToken_string h
    exact ⟨by simp [Token.text], by simp [Token.text, readString_append hread]⟩
  | .sign symbol, hsign =>
    obtain ⟨c, rfl, -, -, hother⟩ := exists_of_mem_importSigns hsign
    obtain ⟨hread, rfl⟩ := of_readToken_sign h
    obtain ⟨⟨rest, rfl⟩, -⟩ := of_readSign_single hread (hother '?' (by decide))
    exact ⟨by simp [Token.text], rfl⟩

theorem isBlank_of_isWordPart (h : isWordPart c = true) : isBlank c = false := by
  rw [isWordPart, Bool.and_eq_true, Bool.and_eq_true, Bool.not_eq_true'] at h
  exact h.1.2

/-- A token of an import statement begins with no blank and no comment. -/
theorem begins_of_readToken (h : readToken t = (token, after)) (htoken : token.IsImportToken) :
    Begins t := by
  match token, htoken with
  | .word name, _ =>
    obtain ⟨-, -, hstart⟩ := of_readToken_word h
    intro c hc
    rcases hstart c hc with hword | rfl
    · rw [isWordStart, Bool.and_eq_true] at hword
      refine ⟨isBlank_of_isWordPart hword.1, ?_⟩
      rintro rfl
      rw [isWordPart_of_stops (by decide)] at hword
      exact Bool.false_ne_true hword.1
    · delta isBlank
      decide
  | .string quote body, _ =>
    obtain ⟨hquote, rest, rfl, -⟩ := of_readToken_string h
    rw [begins_cons]
    delta isBlank
    rcases hquote with rfl | rfl <;> decide
  | .sign symbol, hsign =>
    obtain ⟨c, rfl, -, -, hother⟩ := exists_of_mem_importSigns hsign
    obtain ⟨hread, -⟩ := of_readToken_sign h
    obtain ⟨⟨rest, rfl⟩, -⟩ := of_readSign_single hread (hother '?' (by decide))
    simp only [Token.IsImportToken, importSigns, List.mem_cons, List.cons.injEq, and_true,
      List.not_mem_nil, or_false] at hsign
    rw [begins_cons]
    delta isBlank
    rcases hsign with rfl | rfl | rfl | rfl | rfl | rfl | rfl | rfl | rfl <;> decide

/-- A token of an import statement that is written without backslashes is plain and does not go on
behind its text. -/
theorem readToken_isPlain (h : readToken t = (token, after)) (htoken : token.IsImportToken)
    (hescape : '\\' ∉ token.text) (hafter : after.head? ≠ some '\\') :
    token.IsPlain ∧ token.EndsBefore after := by
  match token, htoken with
  | .word name, _ =>
    obtain ⟨hne, hread, hstart⟩ := of_readToken_word h
    obtain ⟨hall, hends⟩ := readName_plain hread le_rfl hescape
    constructor
    · obtain ⟨c, name, rfl⟩ := List.exists_cons_of_ne_nil hne
      rw [← readName_append hread] at hstart
      have hc : c ≠ '\\' := fun hc => hescape (by simp [Token.text, hc])
      rw [List.all_cons, Bool.and_eq_true] at hall
      simp [Token.IsPlain, isWord, (hstart c rfl).resolve_right hc, hall.2]
    · intro c hc
      have hc' : c ≠ '\\' := by
        rintro rfl
        exact hafter hc
      simp [Token.goesOn, hends c hc, hc']
  | .string quote body, _ =>
    obtain ⟨hquote, rest, rfl, hread⟩ := of_readToken_string h
    have hbody : '\\' ∉ body := fun hmem => hescape (by simp [Token.text, hmem])
    exact ⟨⟨hquote, readString_plain_of_eq hread hbody⟩, by simp [Token.EndsBefore, Token.goesOn]⟩
  | .sign symbol, hsign =>
    obtain ⟨c, rfl, -, -, hother⟩ := exists_of_mem_importSigns hsign
    obtain ⟨hread, rfl⟩ := of_readToken_sign h
    obtain ⟨⟨rest, rfl⟩, hlong⟩ := of_readSign_single hread (hother '?' (by decide))
    exact ⟨hsign, (endsBefore_sign_iff hsign).mpr hlong⟩

theorem Token.IsPlain.isImportToken (h : token.IsPlain) : token.IsImportToken := by
  match token, h with
  | .word _, _ | .string _ _, _ => trivial
  | .sign _, hsign => exact hsign

end Tokens

end Disentangle.TypeScript
