import Disentangle.TypeScript.Token
import Mathlib.Data.List.TakeWhile

/-!
What stands between two tokens: blanks and comments. A scanner that passes over them stops at the
same place whatever follows there, as long as it is neither a blank nor the beginning of a comment.
-/

namespace Disentangle.TypeScript

/-- A text of blanks and whole comments; `breaks` tells whether a line break stands outside of its
comments. -/
inductive Trivia : Bool → Text → Prop where
  | nil : Trivia false []
  | blank {breaks : Bool} {rest : Text} (c : Char) (hc : isBlank c = true)
      (h : Trivia breaks rest) : Trivia (c = '\n' || breaks) (c :: rest)
  | line {breaks : Bool} {rest : Text} (body : Text) (e : Char)
      (hbody : ∀ c ∈ body, isLineEnd c = false) (he : isLineEnd e = true)
      (h : Trivia breaks (e :: rest)) : Trivia breaks ('/' :: '/' :: (body ++ e :: rest))
  | block {breaks : Bool} {rest : Text} (body : Text)
      (hbody : ∀ after, afterBlockComment (body ++ '*' :: '/' :: after) = some after)
      (h : Trivia breaks rest) : Trivia breaks ('/' :: '*' :: (body ++ '*' :: '/' :: rest))

theorem Trivia.ne_nil {gap : Text} (h : Trivia true gap) : gap ≠ [] := by
  generalize hbreaks : true = breaks at h
  rintro rfl
  cases h
  cases hbreaks

theorem Trivia.append {breaks breaks' : Bool} {gap gap' : Text} (h : Trivia breaks gap)
    (h' : Trivia breaks' gap') : Trivia (breaks || breaks') (gap ++ gap') := by
  induction h with
  | nil => simpa using h'
  | blank c hc _ ih => simpa [Bool.or_assoc] using Trivia.blank c hc ih
  | line body e hbody he _ ih => simpa using Trivia.line body e hbody he ih
  | block body hbody _ ih => simpa using Trivia.block body hbody ih

/-- A text that begins with no blank and no comment. -/
def Begins (t : Text) : Prop :=
  ∀ c ∈ t.head?, isBlank c = false ∧ c ≠ '/'

theorem begins_cons {c : Char} {t : Text} : Begins (c :: t) ↔ isBlank c = false ∧ c ≠ '/' := by
  simp [Begins]

section Skip

variable {n m : Nat} {broken breaks : Bool} {c : Char} {t x gap : Text}

theorem isBlank_slash : isBlank '/' = false := by
  delta isBlank
  decide

theorem isBlank_space : isBlank ' ' = true := by
  delta isBlank
  decide

theorem isBlank_of_isLineEnd (h : isLineEnd c = true) : isBlank c = true := by
  simp only [isLineEnd, Bool.or_eq_true, decide_eq_true_eq] at h
  delta isBlank
  rcases h with ((rfl | rfl) | rfl) | rfl <;> decide

theorem skipTrivia_blank (hc : isBlank c = true) :
    skipTrivia (n + 1) broken (c :: t) = skipTrivia n (broken || c = '\n') t := by
  have hslash : c ≠ '/' := by
    rintro rfl
    rw [isBlank_slash] at hc
    cases hc
  rw [skipTrivia.eq_4 _ _ _ _ (by simp [hslash]) (by simp [hslash]), if_pos hc]

theorem skipTrivia_block {after : Text} (h : afterBlockComment t = some after) :
    skipTrivia (n + 1) broken ('/' :: '*' :: t) = skipTrivia n broken after := by
  rw [skipTrivia, h]

theorem skipTrivia_begins (h : Begins x) : skipTrivia (n + 1) broken x = (broken, x) := by
  match x, h with
  | [], _ => rfl
  | c :: rest, h =>
    obtain ⟨hblank, hslash⟩ := begins_cons.mp h
    rw [skipTrivia.eq_4 _ _ _ _ (by simp [hslash]) (by simp [hslash]), if_neg (by simp [hblank])]

/-- A text is what is left of a line, and what begins with a line end or is empty. -/
theorem exists_line (t : Text) :
    ∃ line later, t = line ++ later ∧ t.takeWhile (fun c => !isLineEnd c) = line ∧
      t.dropWhile (fun c => !isLineEnd c) = later ∧ (∀ c ∈ line, isLineEnd c = false) ∧
      ∀ c ∈ later.head?, isLineEnd c = true := by
  refine ⟨_, _, List.takeWhile_append_dropWhile.symm, rfl, rfl, fun c hc => ?_, fun c hc => ?_⟩
  · simpa using List.mem_takeWhile_imp hc
  · have hhead := List.head?_dropWhile_not (fun c => !isLineEnd c) t
    rw [Option.mem_def.mp hc] at hhead
    simpa using hhead

theorem dropWhile_line {body : Text} {e : Char} (hbody : ∀ c ∈ body, isLineEnd c = false)
    (he : isLineEnd e = true) (t : Text) :
    (body ++ e :: t).dropWhile (fun c => !isLineEnd c) = e :: t := by
  rw [List.dropWhile_append_of_pos (by simpa using hbody),
    List.dropWhile_cons_of_neg (by simp [he])]

/-- What has been passed by the end of a block comment is the comment, whatever follows. -/
theorem exists_of_afterBlockComment {after : Text} (h : afterBlockComment t = some after) :
    ∃ body, t = body ++ '*' :: '/' :: after ∧
      ∀ later, afterBlockComment (body ++ '*' :: '/' :: later) = some later := by
  fun_induction afterBlockComment t with
  | case1 => cases h
  | case2 rest =>
    cases h
    exact ⟨[], rfl, fun _ => rfl⟩
  | case3 c rest hne ih =>
    obtain ⟨body, rfl, hbody⟩ := ih h
    refine ⟨c :: body, rfl, fun later => ?_⟩
    rw [List.cons_append, afterBlockComment.eq_3, hbody]
    intro rest' hc heq
    cases body with
    | nil => simp at heq
    | cons d body =>
      have hd : d = '/' := (List.cons.inj heq).1
      exact hne (body ++ '*' :: '/' :: after) hc (by rw [hd]; rfl)

theorem skipTrivia_suffix : (skipTrivia n broken t).2 <:+ t := by
  fun_induction skipTrivia n broken t with
  | case2 broken n rest ih =>
    have hrest := ih.trans (List.dropWhile_suffix _)
    exact (hrest.trans (List.suffix_cons _ _)).trans (List.suffix_cons _ _)
  | case3 broken n rest after hafter ih =>
    obtain ⟨body, rfl, -⟩ := exists_of_afterBlockComment hafter
    obtain ⟨front, hfront⟩ := ih
    exact ⟨'/' :: '*' :: (body ++ '*' :: '/' :: front), by simp [hfront]⟩
  | case5 broken n c rest _ _ _ ih => exact ih.trans (List.suffix_cons _ _)
  | case1 | case4 | case6 | case7 => exact List.suffix_rfl

/-- A line break before a text does not change what is passed over in it. -/
theorem skipTrivia_or :
    skipTrivia n (broken || breaks) t =
      (broken || (skipTrivia n breaks t).1, (skipTrivia n breaks t).2) := by
  fun_induction skipTrivia n breaks t with
  | case1 => rfl
  | case2 breaks n rest ih => rw [skipTrivia, ih]
  | case3 breaks n rest after hafter ih => rw [skipTrivia_block hafter, ih]
  | case4 breaks n rest hafter => rw [skipTrivia, hafter]
  | case5 breaks n c rest hline hblock hblank ih =>
    rw [skipTrivia_blank hblank, Bool.or_assoc, ih]
  | case6 breaks n c rest hline hblock hblank =>
    rw [skipTrivia.eq_4 _ _ _ _ hline hblock, if_neg hblank]
  | case7 => rfl

theorem skipTrivia_fuel (hn : t.length < n) (hm : t.length < m) :
    skipTrivia n broken t = skipTrivia m broken t := by
  obtain ⟨m, rfl⟩ := Nat.exists_eq_add_one_of_ne_zero (by omega : m ≠ 0)
  fun_induction skipTrivia n broken t generalizing m with
  | case1 => simp at hn
  | case2 broken n rest ih =>
    have hle : (rest.dropWhile fun c => !isLineEnd c).length ≤ rest.length :=
      (List.dropWhile_suffix _).length_le
    simp only [List.length_cons] at hn hm
    obtain ⟨m, rfl⟩ := Nat.exists_eq_add_one_of_ne_zero (by omega : m ≠ 0)
    rw [skipTrivia, ih (by omega) m (by omega)]
  | case3 broken n rest after hafter ih =>
    obtain ⟨body, rfl, -⟩ := exists_of_afterBlockComment hafter
    simp only [List.length_cons, List.length_append] at hn hm
    obtain ⟨m, rfl⟩ := Nat.exists_eq_add_one_of_ne_zero (by omega : m ≠ 0)
    rw [skipTrivia_block hafter, ih (by omega) m (by omega)]
  | case4 broken n rest hafter => rw [skipTrivia, hafter]
  | case5 broken n c rest _ _ hblank ih =>
    simp only [List.length_cons] at hn hm
    obtain ⟨m, rfl⟩ := Nat.exists_eq_add_one_of_ne_zero (by omega : m ≠ 0)
    rw [skipTrivia_blank hblank, ih (by omega) m (by omega)]
  | case6 broken n c rest hline hblock hblank =>
    rw [skipTrivia.eq_4 _ _ _ _ hline hblock, if_neg hblank]
  | case7 => rfl

/-- Blanks and comments are passed over, whatever follows. -/
theorem Trivia.skip_append (h : Trivia breaks gap) (hn : (gap ++ x).length < n)
    (hm : x.length < m) :
    skipTrivia n broken (gap ++ x) = skipTrivia m (broken || breaks) x := by
  obtain ⟨n, rfl⟩ := Nat.exists_eq_add_one_of_ne_zero (by omega : n ≠ 0)
  induction h generalizing n broken with
  | nil =>
    rw [List.nil_append] at hn ⊢
    rw [Bool.or_false]
    exact skipTrivia_fuel hn hm
  | blank c hc _ ih =>
    rw [List.cons_append, List.length_cons] at hn
    obtain ⟨n, rfl⟩ := Nat.exists_eq_add_one_of_ne_zero (by omega : n ≠ 0)
    rw [List.cons_append, skipTrivia_blank hc, ih n (by omega), Bool.or_assoc]
  | line body e hbody he _ ih =>
    simp only [List.cons_append, List.append_assoc, List.length_cons, List.length_append] at hn ih ⊢
    obtain ⟨n, rfl⟩ := Nat.exists_eq_add_one_of_ne_zero (by omega : n ≠ 0)
    rw [skipTrivia, dropWhile_line hbody he]
    exact ih n (by omega)
  | block body hbody _ ih =>
    simp only [List.cons_append, List.append_assoc, List.length_cons, List.length_append] at hn ih ⊢
    obtain ⟨n, rfl⟩ := Nat.exists_eq_add_one_of_ne_zero (by omega : n ≠ 0)
    rw [skipTrivia_block (hbody _)]
    exact ih n (by omega)

theorem Trivia.skip (h : Trivia breaks gap) (hx : Begins x) (hn : (gap ++ x).length < n) :
    skipTrivia n broken (gap ++ x) = (broken || breaks, x) := by
  rw [h.skip_append hn (Nat.lt_succ_self _), skipTrivia_begins hx]

/-- What is passed over before something else than a comment consists of blanks and comments. -/
theorem exists_trivia {broken' : Bool} (hn : t.length < n)
    (h : skipTrivia n broken t = (broken', x)) (hne : x ≠ []) (hx : x.head? ≠ some '/') :
    ∃ breaks gap, Trivia breaks gap ∧ t = gap ++ x ∧ Begins x ∧ broken' = (broken || breaks) := by
  fun_induction skipTrivia n broken t with
  | case1 => simp at hn
  | case2 broken n rest ih =>
    obtain ⟨line, later, rfl, -, hlater, hline, hend⟩ := exists_line rest
    rw [hlater] at h ih
    simp only [List.length_cons, List.length_append] at hn
    obtain ⟨breaks, gap, hgap, rfl, hbegins, hbroken⟩ := ih (by omega) h
    -- The comment ends with its line, so a line break follows it before anything else does.
    cases gap with
    | nil =>
      obtain ⟨c, later, rfl⟩ := List.exists_cons_of_ne_nil hne
      have hblank := isBlank_of_isLineEnd (hend c rfl)
      rw [(begins_cons.mp hbegins).1] at hblank
      cases hblank
    | cons e gap =>
      exact ⟨breaks, _, .line line e hline (hend e rfl) hgap, by simp, hbegins, hbroken⟩
  | case3 broken n rest after hafter ih =>
    obtain ⟨body, rfl, hbody⟩ := exists_of_afterBlockComment hafter
    simp only [List.length_cons, List.length_append] at hn
    obtain ⟨breaks, gap, hgap, rfl, hbegins, hbroken⟩ := ih (by omega) h
    exact ⟨breaks, _, .block body hbody hgap, by simp, hbegins, hbroken⟩
  | case4 =>
    cases h
    simp at hx
  | case5 broken n c rest _ _ hblank ih =>
    obtain ⟨breaks, gap, hgap, rfl, hbegins, rfl⟩ := ih (by simpa using hn) h
    exact ⟨_, c :: gap, .blank c hblank hgap, rfl, hbegins, by rw [Bool.or_assoc]⟩
  | case6 broken n c rest _ _ hblank =>
    cases h
    refine ⟨false, [], .nil, rfl, begins_cons.mpr ⟨by simpa using hblank, ?_⟩, by simp⟩
    simpa using hx
  | case7 =>
    cases h
    exact absurd rfl hne

end Skip

section Trailing

variable {n m k : Nat} {broken breaks : Bool} {c : Char} {t x y gap : Text}

theorem trailingComments_blank (hc : isBlank c = true) (hne : c ≠ '\n') :
    trailingComments (n + 1) (c :: t) =
      if trailingComments n t = 0 then 0 else trailingComments n t + 1 := by
  have hslash : c ≠ '/' := by
    rintro rfl
    rw [isBlank_slash] at hc
    cases hc
  rw [trailingComments.eq_4 _ _ _ (by simp [hslash]) (by simp [hslash]), if_pos (by simp [hc, hne])]
  cases trailingComments n t <;> simp

theorem trailingComments_newline : trailingComments (n + 1) ('\n' :: t) = 0 := by
  rw [trailingComments.eq_4 _ _ _ (by simp) (by simp), if_neg (by simp)]

theorem takeWhile_line {body : Text} {e : Char} (hbody : ∀ c ∈ body, isLineEnd c = false)
    (he : isLineEnd e = true) (t : Text) :
    (body ++ e :: t).takeWhile (fun c => !isLineEnd c) = body := by
  rw [List.takeWhile_append_of_pos (by simpa using hbody),
    List.takeWhile_cons_of_neg (by simp [he]), List.append_nil]

/-- How far the comments reach that belong to a statement without a semicolon is decided before
the first line break behind it. -/
theorem Trivia.trailingComments_eq (h : Trivia true gap) (hn : (gap ++ x).length < n)
    (hm : (gap ++ y).length < m) :
    trailingComments n (gap ++ x) = trailingComments m (gap ++ y) := by
  obtain ⟨n, rfl⟩ := Nat.exists_eq_add_one_of_ne_zero (by omega : n ≠ 0)
  obtain ⟨m, rfl⟩ := Nat.exists_eq_add_one_of_ne_zero (by omega : m ≠ 0)
  generalize hbreaks : true = breaks at h
  induction h generalizing n m with
  | nil => cases hbreaks
  | blank c hc _ ih =>
    simp only [List.cons_append, List.length_cons] at hn hm ⊢
    obtain ⟨n, rfl⟩ := Nat.exists_eq_add_one_of_ne_zero (by omega : n ≠ 0)
    obtain ⟨m, rfl⟩ := Nat.exists_eq_add_one_of_ne_zero (by omega : m ≠ 0)
    by_cases hbreak : c = '\n'
    · subst hbreak
      rw [trailingComments_newline, trailingComments_newline]
    · rw [decide_eq_false hbreak, Bool.false_or] at hbreaks
      rw [trailingComments_blank hc hbreak, trailingComments_blank hc hbreak,
        ih n (by omega) m (by omega) hbreaks]
  | line body e hbody he _ _ =>
    simp only [List.cons_append, List.append_assoc]
    rw [trailingComments, trailingComments, takeWhile_line hbody he, takeWhile_line hbody he]
  | block body hbody _ ih =>
    simp only [List.cons_append, List.append_assoc, List.length_cons, List.length_append]
      at hn hm ih ⊢
    obtain ⟨n, rfl⟩ := Nat.exists_eq_add_one_of_ne_zero (by omega : n ≠ 0)
    obtain ⟨m, rfl⟩ := Nat.exists_eq_add_one_of_ne_zero (by omega : m ≠ 0)
    rw [trailingComments, trailingComments, hbody, hbody]
    dsimp only
    rw [ih n (by omega) m (by omega) hbreaks]
    simp only [List.length_append, List.length_cons]
    omega

/-- The comments that belong to a statement are blanks and comments together with what is left of
the line. -/
theorem Trivia.of_trailingComments {front : Text} (h : Trivia breaks gap)
    (hgap : gap = [] → ∃ c rest, x = c :: rest ∧ isLineEnd c = false)
    (hfront : front.length = trailingComments k (front ++ (gap ++ x))) :
    Trivia breaks (front ++ gap) := by
  generalize ht : front ++ (gap ++ x) = t at hfront
  fun_induction trailingComments k t generalizing front with
  | case2 k rest =>
    obtain ⟨line, later, rfl, htake, -, hline, hend⟩ := exists_line rest
    rw [htake] at hfront
    have hwhole : front ++ (gap ++ x) = '/' :: '/' :: line ++ later := ht
    obtain ⟨rfl, rfl⟩ := List.append_inj hwhole (by rw [hfront, Nat.add_comm]; rfl)
    cases gap with
    | nil =>
      obtain ⟨c, later, rfl, hc⟩ := hgap rfl
      rw [hend c rfl] at hc
      cases hc
    | cons e gap => exact .line line e hline (hend e rfl) h
  | case3 k rest after hafter ih =>
    obtain ⟨body, rfl, hbody⟩ := exists_of_afterBlockComment hafter
    have hlong : ('/' :: '*' :: (body ++ ['*', '/'])).length ≤ front.length := by
      rw [hfront]
      simp only [List.length_cons, List.length_append, List.length_nil]
      omega
    have hwhole : front ++ (gap ++ x) = '/' :: '*' :: (body ++ ['*', '/']) ++ after := by
      rw [ht]
      simp
    obtain ⟨front, rfl⟩ := List.prefix_of_prefix_length_le (List.prefix_append _ after)
      (hwhole ▸ List.prefix_append front (gap ++ x)) hlong
    rw [List.append_assoc, List.append_cancel_left_eq] at hwhole
    have hrest : Trivia breaks (front ++ gap) := by
      apply ih hwhole
      simp only [List.length_cons, List.length_append, List.length_nil] at hfront ⊢
      omega
    simpa using Trivia.block body hbody hrest
  | case6 k c rest hline hblock hblank count hcount ih =>
    obtain ⟨hc, hbreak⟩ : isBlank c = true ∧ c ≠ '\n' := by simpa using hblank
    match front, hfront with
    | c' :: front, hfront =>
      obtain ⟨rfl, rfl⟩ := List.cons.inj ht
      have hrest : Trivia breaks (front ++ gap) := by
        apply ih rfl
        rw [hcount]
        simpa using hfront
      simpa [hbreak] using Trivia.blank c' hc hrest
  | case1 | case4 | case5 | case7 | case8 =>
    rw [List.length_eq_zero_iff] at hfront
    rwa [hfront]

end Trailing

end Disentangle.TypeScript
