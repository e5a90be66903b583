import Parqtel.Query.Lexer

/-!
# What the lexer and the duration parser do

A token takes text away unless it is the end, no word is a plain number of seconds, and a failure
of the lexer is an error and never a crash (`nextToken_lexes`). The duration parser thus reads the
words of a query group by group, with checked arithmetic (`parseDurationStr_word`).
-/

namespace Parqtel.Query

open Lib List Char Nat Option Storage

/-! ## What is left of the text -/

variable {α : Type}

theorem length_dropWhile_le (q : α → Bool) (as : List α) : (as.dropWhile q).length ≤ as.length :=
  (dropWhile_sublist q).length_le

variable {cs text rest : List Char}

theorem lexString_length {quote : Char} (h : lexString quote cs = some (text, rest)) :
    rest.length < cs.length := by
  induction cs using lexString.induct quote generalizing text rest with
  | case1 => cases h
  | case2 => cases h
  | case3 c cs ih =>
    obtain ⟨⟨text', rest'⟩, h', heq⟩ := map_eq_some_iff.mp h
    cases heq
    have := ih h'
    simp only [length_cons]
    omega
  | case4 cs hend hslash =>
    rw [lexString.eq_4 _ _ _ hend hslash, if_pos rfl] at h
    cases h
    exact lt_succ_self _
  | case5 c cs hend hslash hquote ih =>
    rw [lexString.eq_4 _ _ _ hend hslash, if_neg hquote] at h
    obtain ⟨⟨text', rest'⟩, h', heq⟩ := map_eq_some_iff.mp h
    cases heq
    exact lt_succ_of_lt (ih h')

theorem compoundLoop_spec (turns : ℕ) (text rest : List Char) :
    text <+: (compoundLoop turns text rest).1 ∧
      (compoundLoop turns text rest).2.length ≤ rest.length := by
  induction turns generalizing text rest with
  | zero => exact ⟨prefix_rfl, le_refl _⟩
  | succ turns ih =>
    unfold compoundLoop
    have hdrop := length_dropWhile_le isDigit rest
    cases hrest : rest.dropWhile isDigit with
    | nil => exact ⟨prefix_rfl, le_refl _⟩
    | cons u after =>
      rw [hrest, length_cons] at hdrop
      have hgroup (unit next : List Char) (hnext : next.length ≤ after.length) :
          text <+: (compoundLoop turns (text ++ rest.takeWhile isDigit ++ unit) next).1 ∧
            (compoundLoop turns (text ++ rest.takeWhile isDigit ++ unit) next).2.length ≤
              rest.length := by
        obtain ⟨hpre, hlen⟩ := ih (text ++ rest.takeWhile isDigit ++ unit) next
        exact ⟨((prefix_append text _).trans (prefix_append _ _)).trans hpre, by omega⟩
      dsimp only
      split_ifs
      · exact hgroup _ _ (by rw [length_tail]; omega)
      · exact hgroup _ _ le_rfl
      · exact ⟨prefix_rfl, le_refl _⟩

theorem lexDuration_spec (h : lexDuration cs = some (text, rest)) : rest.length < cs.length ∧
    ∃ u ∈ ['m', 'h', 's', 'd', 'w', 'y'], cs.takeWhile isDigit ++ [u] <+: text := by
  unfold lexDuration at h
  have hdrop := length_dropWhile_le isDigit cs
  cases hrest : cs.dropWhile isDigit with
  | nil =>
    rw [hrest] at h
    cases h
  | cons u after =>
    rw [hrest, length_cons] at hdrop
    rw [hrest] at h
    dsimp only at h
    split_ifs at h with hunit hms
    all_goals
      have hmem : u ∈ ['m', 'h', 's', 'd', 'w', 'y'] := by
        simp only [isUnit, Bool.or_eq_true, decide_eq_true_eq] at hunit
        rcases hunit with hunit | rfl
        · exact mem_append_left ['y'] hunit
        · decide
    · obtain ⟨hpre, hlen⟩ :=
        compoundLoop_spec cs.length (cs.takeWhile isDigit ++ [u, 's']) after.tail
      rw [some.inj h] at hpre hlen
      rw [length_tail] at hlen
      exact ⟨by dsimp only at hlen; omega, u, hmem,
        ((prefix_append_right_inj _).mpr (prefix_append [u] ['s'])).trans hpre⟩
    · obtain ⟨hpre, hlen⟩ := compoundLoop_spec cs.length (cs.takeWhile isDigit ++ [u]) after
      rw [some.inj h] at hpre hlen
      exact ⟨by dsimp only at hlen; omega, u, hmem, hpre⟩

theorem numberLoop_length (seenDot seenExp first : Bool) (cs : List Char) :
    (numberLoop seenDot seenExp first cs).2.length ≤ cs.length := by
  fun_induction numberLoop seenDot seenExp first cs with
  | case1 => exact le_refl _
  | _ => simp_all only [length_cons, length_nil]; omega

variable {c : Char}

theorem numberLoop_length_lt (h : c.isDigit = true ∨ c = '.') (cs : List Char) :
    (numberLoop false false true (c :: cs)).2.length < (c :: cs).length := by
  rw [numberLoop.eq_def]
  dsimp only
  rw [length_cons, Nat.lt_succ_iff]
  split_ifs with hdigit hdot
  · exact numberLoop_length _ _ _ cs
  · exact numberLoop_length _ _ _ cs
  · exact absurd ⟨h.resolve_left hdigit, rfl, rfl⟩ hdot
  · exact absurd ⟨h.resolve_left hdigit, rfl, rfl⟩ hdot

/-! ## Words are no numbers -/

theorem parseI64_eq_none (hc : c ∈ cs) (hdigit : c.isDigit = false) (hminus : cs.head? ≠ some '-')
    (hplus : cs.head? ≠ some '+') : parseI64 cs = none := by
  have hall : ¬ (cs ≠ [] ∧ cs.all isDigit = true) := by
    rintro ⟨-, h⟩
    rw [all_eq_true.mp h c hc] at hdigit
    cases hdigit
  unfold parseI64
  dsimp only
  split
  · exact absurd rfl hminus
  · exact absurd rfl hplus
  · rw [if_neg hall]
    rfl

/-- The text of a token that is not a number of seconds. -/
def IsWord (text : List Char) : Prop := parseI64 text = none

theorem isWord_of_digits {digits : List Char} {u : Char} (hdigits : ∀ d ∈ digits, d.isDigit = true)
    (hu : u.isDigit = false) (hminus : u ≠ '-') (hplus : u ≠ '+') (h : digits ++ [u] <+: text) :
    IsWord text := by
  have hmem : u ∈ text := h.subset (mem_append_right _ (mem_singleton_self u))
  have hhead {c : Char} (hsign : c.isDigit = false) (hc : u ≠ c) : text.head? ≠ some c := by
    obtain ⟨after, rfl⟩ := h
    cases digits with
    | nil => simpa using hc
    | cons d ds =>
      intro heq
      rw [← some.inj heq, hdigits d mem_cons_self] at hsign
      cases hsign
  exact parseI64_eq_none hmem hu (hhead (by decide) hminus) (hhead (by decide) hplus)

theorem lexDuration_isWord (h : lexDuration cs = some (text, rest)) : IsWord text := by
  obtain ⟨-, u, hu, hpre⟩ := lexDuration_spec h
  have hfacts : ∀ v ∈ ['m', 'h', 's', 'd', 'w', 'y'], v.isDigit = false ∧ v ≠ '-' ∧ v ≠ '+' := by
    simp
  obtain ⟨hdigit, hminus, hplus⟩ := hfacts u hu
  exact isWord_of_digits (fun _ hd => mem_takeWhile_imp hd) hdigit hminus hplus hpre

section
variable {F : Type} {p : Platform F}

def Lexes (src : List Char) : Eval (Tok F × List Char) → Prop
  | .ok (tok, rest) =>
    (tok = .sym .eof ∨ rest.length < src.length) ∧ ∀ s, tok = .ident s → IsWord s.toList
  | .error fault => fault.isCrash = false

variable {src : List Char}

theorem Lexes.sym (h : rest.length < src.length) (s : Sym) :
    Lexes src (.ok (.sym s, rest) : Eval (Tok F × List Char)) :=
  ⟨.inr h, nofun⟩

theorem Lexes.extend (h : cs.length < src.length) (short : Sym) (long : List (Char × Sym)) :
    Lexes src (.ok (extend short long cs) : Eval (Tok F × List Char)) := by
  unfold Query.extend
  split
  · refine .sym ?_ _
    rw [length_tail]
    omega
  · exact .sym h _

theorem Lexes.lexNumberOrDuration (hc : c.isDigit = true ∨ c = '.')
    (h : (c :: cs).length ≤ src.length) :
    Lexes src (lexNumberOrDuration p (c :: cs)) := by
  unfold Query.lexNumberOrDuration
  cases hdur : lexDuration (c :: cs) with
  | some cut =>
    refine ⟨.inr ((lexDuration_spec hdur).1.trans_le h), fun s hs => ?_⟩
    cases hs
    rw [String.toList_ofList]
    exact lexDuration_isWord hdur
  | none =>
    have hlen := (numberLoop_length_lt hc cs).trans_le h
    unfold lexNumber
    dsimp only
    split
    · exact ⟨.inr hlen, nofun⟩
    · rfl

theorem Lexes.lexIdent (hc : c = '_' ∨ c.isAlpha = true) (h : (c :: cs).length ≤ src.length) :
    Lexes src (.ok (lexIdent (c :: cs)) : Eval (Tok F × List Char)) := by
  have hident : isIdentChar c = true := by
    unfold isIdentChar isAlphanum
    rcases hc with rfl | hc
    · rfl
    · simp only [hc, Bool.true_or, Bool.or_true]
  have hlen : ((c :: cs).dropWhile isIdentChar).length < src.length := by
    rw [dropWhile_cons_of_pos hident]
    exact (length_dropWhile_le _ cs).trans_lt (lt_of_succ_le h)
  have hdigit : c.isDigit = false := by
    rcases hc with rfl | hc
    · rfl
    · grind [isAlpha, isUpper, isLower, isDigit]
  have hword : IsWord (String.ofList ((c :: cs).takeWhile isIdentChar)).toList := by
    rw [String.toList_ofList, takeWhile_cons_of_pos hident]
    have hnil : ∀ d ∈ ([] : List Char), d.isDigit = true := nofun
    refine isWord_of_digits hnil hdigit ?_ ?_ (prefix_append [c] _)
    · rintro rfl
      revert hc
      decide
    · rintro rfl
      revert hc
      decide
  refine ⟨.inr hlen, fun s hs => ?_⟩
  split at hs
  · cases hs
  · cases hs
  · cases hs
  · cases hs
    exact hword

/-- **The lexer takes text away, reads words and does not crash.** -/
theorem nextToken_lexes (src : List Char) : Lexes src (nextToken p src) := by
  have hskip := length_dropWhile_le isAsciiWhitespace src
  unfold nextToken
  split
  · exact ⟨.inl rfl, nofun⟩
  · rename_i c cs hcs
    rw [hcs, length_cons] at hskip
    have hlt : cs.length < src.length := hskip
    split
    case h_16 =>
      split
      · exact .sym (lt_of_succ_lt hlt) _
      · exact .sym (lt_of_succ_lt hlt) _
      · rfl
    case h_20 =>
      split_ifs with hquote hnumber hident
      · cases hstr : lexString c cs with
        | some cut =>
          exact ⟨.inr ((lexString_length hstr).trans hlt), nofun⟩
        | none => rfl
      · exact .lexNumberOrDuration (hnumber.imp_right And.left) hskip
      · exact .lexIdent hident hskip
      · rfl
    all_goals first
      | exact .sym hlt _
      | exact .extend hlt _ _

/-! ## Durations -/

/-- A value with a property, or an error that the code returns. -/
def Answers (post : α → Prop) : Eval α → Prop
  | .ok a => post a
  | .error fault => fault.isCrash = false

theorem Answers.bind {β : Type} {pre : α → Prop} {post : β → Prop} {x : Eval α} {f : α → Eval β}
    (hx : Answers pre x) (hf : ∀ a, pre a → Answers post (f a)) : Answers post (x >>= f) := by
  cases x with
  | ok a => exact hf a hx
  | error fault => exact hx

def IsDuration (d : ℤ) : Prop := 0 ≤ d ∧ InI64 d

theorem isDuration_zero : IsDuration 0 := ⟨le_rfl, by decide⟩

theorem checked_answers (message : String) {z : ℤ} (h : 0 ≤ z) :
    Answers IsDuration (checked message z) := by
  unfold checked
  split_ifs with hin
  · exact ⟨h, hin⟩
  · rfl

theorem parseI64_digits_nonneg {digits : List Char} {n : ℤ}
    (hdigits : ∀ d ∈ digits, d.isDigit = true) (h : parseI64 digits = some n) : 0 ≤ n := by
  have hsign : ∀ c ∈ ['-', '+'], c.isDigit ≠ true := by simp
  unfold parseI64 at h
  dsimp only at h
  obtain ⟨hvalue, -⟩ := filter_eq_some_iff.mp h
  split at hvalue
  · exact absurd (hdigits '-' mem_cons_self) (hsign _ mem_cons_self)
  · exact absurd (hdigits '+' mem_cons_self)
      (hsign _ (mem_cons_of_mem _ mem_cons_self))
  · split_ifs at hvalue
    rw [← some.inj hvalue]
    exact Int.natCast_nonneg _

theorem units_spec : ∀ unit ∈ units, 0 < unit.1.length ∧ 0 ≤ unit.2 := by decide

theorem durationLoop_answers (s : String) {turns : ℕ} {total : ℤ} (hturns : cs.length ≤ turns)
    (htotal : IsDuration total) :
    Answers IsDuration (durationLoop p s turns cs total) := by
  induction turns generalizing cs total with
  | zero =>
    rw [length_eq_zero_iff.mp (le_zero.mp hturns)]
    exact htotal
  | succ turns ih =>
    cases cs with
    | nil => exact htotal
    | cons c cs =>
      have hlen := length_dropWhile_le isDigit (c :: cs)
      rw [durationLoop]
      split
      · rfl
      · rename_i suffix mult hunit
        obtain ⟨hsuffix, hmult⟩ := units_spec _ (mem_of_find?_eq_some hunit)
        split
        · rfl
        · rename_i n hn
          have hnonneg := parseI64_digits_nonneg (fun _ hd => mem_takeWhile_imp hd) hn
          refine (checked_answers _ (mul_nonneg hnonneg hmult)).bind fun part hpart => ?_
          refine (checked_answers _ (add_nonneg htotal.1 hpart.1)).bind fun total' htotal' => ?_
          refine ih ?_ htotal'
          have hsuffix : 0 < suffix.length := hsuffix
          rw [length_drop]
          omega

/-- **The duration that a word denotes.** -/
theorem parseDurationStr_word {build : Build} {s : String} (h : IsWord s.toList) :
    Answers IsDuration (parseDurationStr p build s) := by
  unfold parseDurationStr
  split_ifs
  · rfl
  · rw [h]
    exact durationLoop_answers s (le_refl _) ⟨le_rfl, by decide⟩

end

end Parqtel.Query
