import Parqtel.Query.LexerSpec
import Parqtel.Query.Parser

/-!
# What the parser does

Every function of the parser reads on: what it returns stands further on in the text, its turns
are enough, and its arithmetic overflows at one place only, the number of seconds of an offset
(`ReadsOn`). What a debug build has read fits, but for a number that it has yet to read (`Stands`).
So a query is parsed to an expression whose durations are in range, or refused (`parseExpr_spec`).
-/

namespace Parqtel.Query

open Lib Nat

variable {F : Type}

def Tok.isNumber : Tok F → Bool
  | .number _ => true
  | _ => false

namespace Parser

def size (c : Parser F) : ℕ :=
  match c.tok with
  | .sym .eof => 0
  | _ => c.rest.length + 1

/-- The current token, if it is a word, is no number. -/
def Lexed (c : Parser F) : Prop := ∀ s, c.tok = .ident s → IsWord s.toList

section
variable (p : Platform F)

def Next (c c' : Parser F) : Prop := c.tok ≠ .sym .eof ∧ c.advance p = .ok c'

/-- How many braces are open behind a token. -/
def openAfter (tok : Tok F) (n : ℕ) : ℕ :=
  match tok with
  | .sym .lBrace => n + 1
  | .sym .rBrace => n - 1
  | _ => n

def Step (x y : ℕ × Parser F) : Prop := Next p x.2 y.2 ∧ y.1 = openAfter x.2.tok x.1

/-- The parser stands at `offset` with a number of seconds whose nanoseconds no `i64` holds. -/
def OffsetOverflows (c : Parser F) : Prop :=
  c.tok = .ident "offset" ∧
    ∃ c' n, Next p c c' ∧ c'.tok = .number n ∧ ¬ InI64 (p.toI64 n * 1000000000)

/-- A step which, in a debug build, does not leave behind an offset that overflows. -/
def FitStep (build : Build) (x y : ℕ × Parser F) : Prop :=
  Step p x y ∧ (build = .debug → x.1 = 0 → ¬ OffsetOverflows p x.2)

end

/-- A text that is parsed: the parser at its start, and the build. -/
structure Reading (F : Type) where
  p : Platform F
  build : Build
  start : Parser F

namespace Reading

variable (r : Reading F)

/-- From the start of the text to `c`, inside of `n` braces, all offsets fit. -/
def Fits (n : ℕ) (c : Parser F) : Prop :=
  Relation.ReflTransGen (FitStep r.p r.build) (0, r.start) (n, c)

/-- The parser is outside of braces, and all before it fits. -/
def Clear (c : Parser F) : Prop := c.Lexed ∧ r.Fits 0 c

/-- As `Clear`, but a number at which the parser stands may belong to an `offset` before it. -/
def Stands (c : Parser F) : Prop := c.Lexed ∧ (c.tok.isNumber = false → r.Fits 0 c)

variable {r} {c : Parser F}

theorem Clear.stands (h : r.Clear c) : r.Stands c := ⟨h.1, fun _ => h.2⟩

end Reading

variable {p : Platform F} {c c' : Parser F}

theorem size_of_ne_eof (h : c.tok ≠ .sym .eof) : c.size = c.rest.length + 1 := by
  unfold size
  split
  · rename_i heq
    exact absurd heq h
  · rfl

theorem size_le (c : Parser F) : c.size ≤ c.rest.length + 1 := by
  unfold size
  split <;> omega

theorem advance_cases (h : c.tok ≠ .sym .eof) :
    (∃ c', c.advance p = .ok c' ∧ c'.size < c.size ∧ c'.Lexed) ∨
      ∃ fault, c.advance p = .error fault ∧ fault.isCrash = false := by
  have hadvance : c.advance p = nextToken p c.rest >>= fun next => .ok ⟨next.1, next.2⟩ := by
    unfold advance
    split
    · rename_i heq
      exact absurd heq h
    · rfl
  have hlexes := nextToken_lexes (p := p) c.rest
  rw [hadvance]
  cases hnext : nextToken p c.rest with
  | error fault =>
    rw [hnext] at hlexes
    exact .inr ⟨fault, rfl, hlexes⟩
  | ok next =>
    obtain ⟨tok, rest⟩ := next
    rw [hnext] at hlexes
    refine .inl ⟨⟨tok, rest⟩, rfl, ?_, hlexes.2⟩
    rw [size_of_ne_eof h]
    rcases hlexes.1 with rfl | hlt
    · exact succ_pos _
    · exact (size_le _).trans_lt (succ_lt_succ hlt)

theorem offsetOverflows_iff (h : Next p c c') : OffsetOverflows p c ↔ c.tok = .ident "offset" ∧
    ∃ n, c'.tok = .number n ∧ ¬ InI64 (p.toI64 n * 1000000000) := by
  refine and_congr_right fun _ => ⟨?_, fun ⟨n, hn⟩ => ⟨c', n, h, hn⟩⟩
  rintro ⟨c'', n, h', hn⟩
  obtain rfl := Except.ok.inj (h.2.symm.trans h'.2)
  exact ⟨n, hn⟩

/-- In a text that is read to its end so that all offsets fit, none overflows. -/
theorem not_offsetOverflows {x : ℕ × Parser F}
    (hx : Relation.ReflTransGen (FitStep p .debug) x (0, c))
    (heof : c.tok = .sym .eof) (hc : Relation.ReflTransGen (Step p) x (0, c')) :
    ¬ OffsetOverflows p c' := by
  induction hx using Relation.ReflTransGen.head_induction_on with
  | refl =>
    rcases hc.cases_head with heq | ⟨y, hstep, -⟩
    · cases heq
      rintro ⟨hoffset, -⟩
      cases heof.symm.trans hoffset
    · exact absurd heof hstep.1.1
  | head hfit _ ih =>
    rcases hc.cases_head with heq | ⟨z, hstep, hz⟩
    · subst heq
      exact hfit.2 rfl rfl
    · have hsame : z = _ := Prod.ext (hstep.2.trans hfit.1.2.symm)
        (Except.ok.inj (hstep.1.2.symm.trans hfit.1.1.2))
      exact ih (hsame ▸ hz)

end Parser

open Parqtel.Query.Parser

/-! ## Reading on -/

section
variable (r : Reading F)

/-- A parser's outcome at `c`: a value with a property further on, or an error which is no hang,
and an overflow only where an offset overflows. -/
def ReadsOn {α : Type} (c : Parser F) (post : α → Parser F → Prop) : Eval (α × Parser F) → Prop
  | .ok (a, c') => c'.size ≤ c.size ∧ r.Stands c' ∧ post a c'
  | .error fault => fault ≠ .hang ∧ (fault = .overflow →
      ∃ c', Relation.ReflTransGen (Step r.p) (0, r.start) (0, c') ∧ OffsetOverflows r.p c')

/-- Only that all fits up to where the parser stands then. -/
abbrev ReadsClear {α : Type} (c : Parser F) (x : Eval (α × Parser F)) : Prop :=
  ReadsOn r c (fun _ c' => r.Clear c') x

end

def Tok.plain : Tok F → Bool
  | .number _ | .sym .eof | .sym .lBrace | .sym .rBrace | .ident "offset" => false
  | _ => true

variable {fault : Fault}

namespace ReadsOn

variable {r : Reading F} {α β : Type} {c : Parser F}
variable {post : α → Parser F → Prop} {post' : β → Parser F → Prop}

theorem ok {a : α} (hc : r.Stands c) (h : post a c) :
    ReadsOn r c post (.ok (a, c)) :=
  ⟨le_rfl, hc, h⟩

theorem refused (h : fault.isCrash = false) : ReadsOn r c post (.error fault) := by
  cases fault with
  | error e => exact ⟨nofun, nofun⟩
  | _ => cases h

theorem invalid (message : String) : ReadsOn r c post (invalid message) := refused rfl

variable {x : Eval (α × Parser F)}

theorem later {c' : Parser F} (hle : c'.size ≤ c.size) (h : ReadsOn r c' post x) :
    ReadsOn r c post x := by
  cases x with
  | ok out => exact ⟨h.1.trans hle, h.2⟩
  | error fault => exact h

theorem imp {post' : α → Parser F → Prop} (h : ReadsOn r c post x)
    (himp : ∀ a c', c'.size ≤ c.size → post a c' → post' a c') :
    ReadsOn r c post' x := by
  cases x with
  | ok out => exact ⟨h.1, h.2.1, himp _ _ h.1 h.2.2⟩
  | error fault => exact h

theorem bind {f : α × Parser F → Eval (β × Parser F)} (hx : ReadsOn r c post x)
    (hf : ∀ a c', c'.size ≤ c.size → r.Stands c' → post a c' →
      ReadsOn r c' post' (f (a, c'))) :
    ReadsOn r c post' (x >>= f) := by
  cases x with
  | error fault => exact hx
  | ok out => exact later hx.1 (hf out.1 out.2 hx.1 hx.2.1 hx.2.2)

theorem bind_pure {x : Eval α} {f : α → Eval (β × Parser F)}
    (hx : ∀ fault, x = .error fault → fault ≠ .hang ∧ fault ≠ .overflow)
    (hf : ∀ a, x = .ok a → ReadsOn r c post' (f a)) :
    ReadsOn r c post' (x >>= f) := by
  cases x with
  | error fault => exact ⟨(hx fault rfl).1, fun h => absurd h (hx fault rfl).2⟩
  | ok a => exact hf a rfl

theorem bind_answers {pre : α → Prop} {x : Eval α} {f : α → Eval (β × Parser F)}
    (hx : Answers pre x) (hf : ∀ a, pre a → ReadsOn r c post' (f a)) :
    ReadsOn r c post' (x >>= f) := by
  cases x with
  | error fault => exact refused hx
  | ok a => exact hf a hx

variable {f : Parser F → Eval (β × Parser F)}

theorem next {n : ℕ} (hc : r.Fits n c) (heof : c.tok ≠ .sym .eof)
    (hf : ∀ c', c'.size < c.size → c'.Lexed → Next r.p c c' →
      ((r.build = .debug → n = 0 → ¬ OffsetOverflows r.p c) →
        r.Fits (openAfter c.tok n) c') → ReadsOn r c' post' (f c')) :
    ReadsOn r c post' (c.advance r.p >>= f) := by
  rcases advance_cases (p := r.p) heof with ⟨c', h, hlt, hlexed⟩ | ⟨fault, h, hfault⟩
  · rw [h]
    have hnext : Next r.p c c' := ⟨heof, h⟩
    exact later hlt.le (hf c' hlt hlexed hnext fun hfit => hc.tail ⟨⟨hnext, rfl⟩, hfit⟩)
  · rw [h]
    exact refused hfault

theorem advance {tok : Tok F} (hc : r.Stands c) (htok : c.tok = tok)
    (hplain : tok.plain = true)
    (hf : ∀ c', c'.size < c.size → r.Clear c' → ReadsOn r c' post' (f c')) :
    ReadsOn r c post' (c.advance r.p >>= f) := by
  subst htok
  have hnumber : c.tok.isNumber = false := by
    cases htok : c.tok <;> simp_all [Tok.plain, Tok.isNumber]
  refine next (hc.2 hnumber) ?_ fun c' hlt hlexed _ hfits => hf c' hlt ⟨hlexed, ?_⟩
  · intro heof
    rw [heof] at hplain
    cases hplain
  · have hopen : openAfter c.tok 0 = 0 := by
      unfold openAfter
      split <;> simp_all [Tok.plain]
    rw [hopen] at hfits
    refine hfits fun _ _ hover => ?_
    rw [hover.1] at hplain
    cases hplain

theorem word {s : String} (hc : r.Stands c) (htok : c.tok = .ident s)
    (hf : ∀ c', c'.size < c.size → r.Stands c' →
      ReadsOn r c' post' (f c')) :
    ReadsOn r c post' (c.advance r.p >>= f) := by
  refine next (hc.2 (by rw [htok]; rfl)) (by rw [htok]; nofun) fun c' hlt hlexed hnext hfits => ?_
  rw [htok] at hfits
  refine hf c' hlt ⟨hlexed, fun hnumber => hfits fun _ _ hover => ?_⟩
  obtain ⟨-, n, hn, -⟩ := (offsetOverflows_iff hnext).mp hover
  rw [hn] at hnumber
  cases hnumber

theorem number {n : F} (hc : r.Clear c) (htok : c.tok = .number n)
    (hf : ∀ c', c'.size < c.size → r.Clear c' → ReadsOn r c' post' (f c')) :
    ReadsOn r c post' (c.advance r.p >>= f) := by
  refine next hc.2 (by rw [htok]; nofun) fun c' hlt hlexed hnext hfits => hf c' hlt ⟨hlexed, ?_⟩
  rw [htok] at hfits
  refine hfits fun _ _ hover => ?_
  cases htok.symm.trans hover.1

theorem expect {s : Sym} (hc : r.Stands c) (hs : (Tok.sym s : Tok F).plain = true)
    (hf : ∀ c', c'.size < c.size → r.Clear c' → ReadsOn r c' post' (f c')) :
    ReadsOn r c post' (c.expect r.p s >>= f) := by
  unfold Parser.expect
  split
  · rename_i s' hs'
    split_ifs with heq
    · exact advance hc hs' (heq ▸ hs) hf
    · exact invalid _
  · exact invalid _

end ReadsOn

/-! ## The durations of an expression -/

/-- The durations of a range are in range; the length and the step are not negative. -/
structure RangeHead.Timed (head : RangeHead) : Prop where
  range : IsDuration head.rangeNs
  step : ∀ d ∈ head.stepNs, IsDuration d
  offset : InI64 head.offsetNs

inductive Expr.Timed : Expr F → Prop
  | selector (sel : SelectorExpr) : Timed (.selector sel)
  | number (n : F) : Timed (.number n)
  | str (s : String) : Timed (.str s)
  | call (name : String) {args : List (Expr F)} (h : ∀ a ∈ args, Timed a) : Timed (.call name args)
  | aggregation (op : AggregationOp) (grouping : Grouping) {param : Option (Expr F)} {e : Expr F}
      (hparam : ∀ a ∈ param, Timed a) (h : Timed e) : Timed (.aggregation op grouping param e)
  | range {head : RangeHead} {e : Expr F} (hhead : head.Timed) (h : Timed e) :
      Timed (.range head e)
  | binary (head : BinaryHead) {lhs rhs : Expr F} (hl : Timed lhs) (hr : Timed rhs) :
      Timed (.binary head lhs rhs)
  | paren {e : Expr F} (h : Timed e) : Timed (.paren e)

/-! ## Labels and modifiers -/

section
variable {r : Reading F} {c : Parser F} {turns : ℕ} {tok : Tok F}

theorem labelLoop_readsOn (labels : List String) (hc : r.Stands c)
    (hturns : c.size < turns) : ReadsClear r c (labelLoop r.p turns labels c) := by
  induction turns generalizing labels c with
  | zero => exact absurd hturns (not_lt_zero _)
  | succ turns ih =>
    unfold labelLoop
    split
    · rename_i htok
      exact .advance hc htok rfl fun c' _ hclear => .ok hclear.stands hclear
    · rename_i htok
      exact .advance hc htok rfl fun c' hlt hclear => ih labels hclear.stands (by omega)
    · rename_i l htok
      exact .word hc htok fun c' hlt hstands => ih (labels ++ [l]) hstands (by omega)
    · exact .invalid _

theorem parseLabelList_readsOn (hc : r.Clear c) (hturns : c.size < turns) :
    ReadsClear r c (parseLabelList r.p turns c) := by
  unfold parseLabelList
  split
  · rename_i htok
    exact .advance hc.stands htok rfl fun c' hlt hclear =>
      labelLoop_readsOn [] hclear.stands (by omega)
  · exact .ok hc.stands hc

theorem labelsAfter_readsOn {A : Type} (f : List String → A) (hc : r.Stands c)
    (htok : c.tok = tok) (hplain : tok.plain = true) (hturns : c.size < turns) :
    ReadsClear r c (do
      let (labels, c) ← parseLabelList r.p turns (← c.advance r.p)
      return (f labels, c)) :=
  .advance hc htok hplain fun _ _ hclear =>
    (parseLabelList_readsOn hclear (by omega)).bind fun _ _ _ hstands hclear' => .ok hstands hclear'

theorem parseCardinality_readsOn (hc : r.Clear c) (hturns : c.size < turns) :
    ReadsClear r c (parseCardinality r.p turns c) := by
  unfold parseCardinality
  split
  · rename_i htok
    exact labelsAfter_readsOn _ hc.stands htok rfl hturns
  · rename_i htok
    exact labelsAfter_readsOn _ hc.stands htok rfl hturns
  · exact .ok hc.stands hc

theorem parseMatching_readsOn (matching : List String → VectorMatch)
    (hc : r.Stands c) (htok : c.tok = tok) (hplain : tok.plain = true)
    (hturns : c.size < turns + 1) :
    ReadsOn r c (fun _ c' => r.Clear c' ∧ c'.size < c.size)
      (parseMatching r.p turns matching c) := by
  refine .advance hc htok hplain fun c' hlt hclear => ?_
  refine (parseLabelList_readsOn hclear (by omega)).bind fun labels c₁ hle₁ _ hclear₁ => ?_
  refine (parseCardinality_readsOn hclear₁ (by omega)).bind fun card c₂ hle₂ hstands₂ hclear₂ => ?_
  exact .ok hstands₂ ⟨hclear₂, by omega⟩

theorem modifierLoop_readsOn (op : BinaryOp) (head : BinaryHead) (hc : r.Clear c)
    (hturns : c.size < turns) :
    ReadsClear r c (modifierLoop r.p op turns head c) := by
  induction turns generalizing head c with
  | zero => exact absurd hturns (not_lt_zero _)
  | succ turns ih =>
    unfold modifierLoop
    split
    · rename_i htok
      split_ifs
      · exact .advance hc.stands htok rfl fun c' hlt hclear => ih _ hclear (by omega)
      · exact .ok hc.stands hc
    · rename_i htok
      exact (parseMatching_readsOn .on hc.stands htok rfl hturns).bind
        fun matching c' _ _ h => ih _ h.1 (by omega)
    · rename_i htok
      exact (parseMatching_readsOn .ignoring hc.stands htok rfl hturns).bind
        fun matching c' _ _ h => ih _ h.1 (by omega)
    · exact .invalid _
    · exact .invalid _
    · exact .ok hc.stands hc

/-! ## Durations -/

theorem parseDuration_readsOn {s : String} (hc : r.Stands c)
    (htok : c.tok = .ident s) : ReadsOn r c
      (fun d c' => IsDuration d ∧ c'.size < c.size) (parseDuration r.p r.build c) := by
  unfold parseDuration
  rw [htok]
  refine .word hc htok fun c' hlt hstands => ?_
  exact .bind_answers (parseDurationStr_word (hc.1 s htok)) fun d hd => .ok hstands ⟨hd, hlt⟩

theorem parseStep_readsOn (hc : r.Stands c) : ReadsOn r c
    (fun step _ => ∀ d ∈ step, IsDuration d) (parseStep r.p r.build c) := by
  have hnone : ∀ d ∈ (none : Option ℤ), IsDuration d := nofun
  unfold parseStep
  split
  · rename_i htok
    refine .advance hc htok rfl fun c' _ hclear => ?_
    split
    · rename_i s htok'
      refine (parseDuration_readsOn hclear.stands htok').bind fun d c'' _ hstands hd => ?_
      exact .ok hstands fun d' hd' => Option.mem_some_iff.mp hd' ▸ hd.1
    · exact .ok hclear.stands hnone
  · exact .ok hc hnone

theorem parseBracket_readsOn (hc : r.Clear c) : ReadsOn r c
    (fun bracket _ => IsDuration bracket.1 ∧ ∀ d ∈ bracket.2, IsDuration d)
    (parseBracket r.p r.build c) := by
  refine .bind (?_ : ReadsOn r c (fun range _ => ∀ d ∈ range, IsDuration d) _)
    fun range c₁ _ hstands₁ hd₁ => ?_
  · split
    · rename_i n htok
      split_ifs
      · refine .number hc htok fun c' _ hclear => ?_
        exact .ok hclear.stands fun d hd => Option.mem_some_iff.mp hd ▸ isDuration_zero
      · exact .invalid _
    · rename_i s htok
      refine (parseDuration_readsOn hc.stands htok).bind fun d c' _ hstands hd => ?_
      exact .ok hstands fun d' hd' => Option.mem_some_iff.mp hd' ▸ hd.1
    · exact .ok hc.stands (by rintro _ ⟨⟩)
    · exact .invalid _
  refine (parseStep_readsOn hstands₁).bind fun step c₂ _ hstands₂ hd₂ => ?_
  refine .expect hstands₂ rfl fun c₃ _ hclear₃ => ?_
  cases range with
  | some range => exact .ok hclear₃.stands ⟨hd₁ range rfl, hd₂⟩
  | none => exact .invalid _

/-- **The one place where the parser's arithmetic overflows.** -/
theorem parseOffset_readsOn (hc : r.Stands c) : ReadsOn r c
    (fun offset c' => InI64 offset ∧ (c.tok = .ident "offset" → c'.size < c.size))
    (parseOffset r.p r.build c) := by
  unfold parseOffset
  split
  · rename_i htok
    have hfits := hc.2 (by rw [htok]; rfl)
    refine .next hfits (by rw [htok]; nofun) fun c' hlt hlexed hnext hfit => ?_
    rw [htok, offsetOverflows_iff hnext] at hfit
    split
    · rename_i s htok'
      have hstands : r.Stands c' := ⟨hlexed, fun _ => hfit fun _ _ hover => by
        obtain ⟨-, n, hn, -⟩ := hover
        cases htok'.symm.trans hn⟩
      refine .word hstands htok' fun c'' hlt' hstands' => ?_
      exact .bind_answers (parseDurationStr_word (hlexed s htok')) fun d hd =>
        .ok hstands' ⟨hd.2, fun _ => by omega⟩
    · rename_i n htok'
      have hnumber : c'.tok ≠ .sym .eof := by
        rw [htok']
        nofun
      rcases advance_cases (p := r.p) hnumber with ⟨c'', h', hlt', hlexed'⟩ | ⟨fault, h', hfault⟩
      · rw [h', ok_bind]
        cases hi : i64 r.build (r.p.toI64 n * 1000000000) with
        | ok d =>
          have hclear : r.Clear c' := ⟨hlexed, hfit fun hdebug _ hover => by
            obtain ⟨-, n', hn', hout⟩ := hover
            cases htok'.symm.trans hn'
            rw [hdebug] at hi
            exact hout (i64_debug_eq_ok.mp hi).2⟩
          have hlast :
              ReadsOn r c' (fun _ _ => True) (c'.advance r.p >>= fun c => .ok (d, c)) :=
            .number hclear htok' fun c'' _ hclear' => .ok hclear'.stands trivial
          rw [h'] at hlast
          exact ⟨by omega, hlast.2.1, i64_inI64 hi, fun _ => by omega⟩
        | error fault =>
          obtain ⟨rfl, -, hout⟩ := i64_eq_error.mp hi
          exact ⟨nofun, fun _ => ⟨c, Relation.ReflTransGen.mono (fun _ _ h => h.1) _ _ hfits,
            htok, c', n, hnext, htok', hout⟩⟩
      · rw [h']
        exact .refused hfault
    · exact .invalid _
  · rename_i htok
    exact .ok hc ⟨by decide, fun h => absurd h htok⟩

/-! ## Selectors -/

theorem bracesLoop_readsOn (depth : ℕ) (out : List Char)
    (hc : r.Fits (depth + 1) c) (hturns : c.size < turns) :
    ReadsClear r c (bracesLoop r.p turns (depth + 1) out c) := by
  induction turns generalizing depth out c with
  | zero => exact absurd hturns (not_lt_zero _)
  | succ turns ih =>
    unfold bracesLoop
    split
    · rename_i htok
      refine .next hc (by rw [htok]; nofun) fun c' hlt _ _ hfit => ?_
      rw [htok] at hfit
      exact ih _ _ (hfit fun _ => nofun) (by omega)
    · rename_i htok
      refine .next hc (by rw [htok]; nofun) fun c' hlt hlexed _ hfit => ?_
      rw [htok] at hfit
      have hfits : r.Fits depth c' := hfit fun _ => nofun
      cases depth with
      | zero => exact .ok (Reading.Clear.stands ⟨hlexed, hfits⟩) ⟨hlexed, hfits⟩
      | succ depth => exact ih depth _ hfits (by omega)
    · rename_i hopens hcloses
      split
      · rename_i text htext
        refine .next hc ?_ fun c' hlt _ _ hfit => ?_
        · intro heof
          rw [heof] at htext
          cases htext
        · have hdepth : openAfter c.tok (depth + 1) = depth + 1 := by
            unfold openAfter
            split
            · exact absurd ‹_› hopens
            · exact absurd ‹_› hcloses
            · rfl
          rw [hdepth] at hfit
          exact ih _ _ (hfit fun _ => nofun) (by omega)
      · exact .invalid _

theorem parseMatcher_fails {part : List Char} (h : parseMatcher r.p part = .error fault) :
    fault ≠ .hang ∧ fault ≠ .overflow := by
  unfold parseMatcher at h
  split at h
  · cases h
    exact ⟨nofun, nofun⟩
  · rcases bind_eq_error.mp h with h | ⟨v, -, h⟩
    · unfold stripQuotes at h
      split_ifs at h
      cases h
      exact ⟨nofun, nofun⟩
    · unfold LabelMatcher.new at h
      split at h
      · split at h <;> cases h
        exact ⟨nofun, nofun⟩
      · split at h <;> cases h
        exact ⟨nofun, nofun⟩
      · cases h
      · cases h

/-- Cutting a selector into its parts can panic, but has nothing to do with time. -/
theorem parseSelector_fails {text : List Char} (h : parseSelector r.p text = .error fault) :
    fault ≠ .hang ∧ fault ≠ .overflow := by
  unfold parseSelector at h
  dsimp only at h
  split at h
  · cases h
    exact ⟨nofun, nofun⟩
  · split at h
    · cases h
    · split at h
      · cases h
        exact ⟨nofun, nofun⟩
      · rcases bind_eq_error.mp h with h | ⟨matchers, -, h⟩
        · obtain ⟨part, -, h⟩ := gather_eq_error h
          split_ifs at h
          rcases bind_eq_error.mp h with h | ⟨m, -, h⟩
          · exact parseMatcher_fails h
          · cases h
        · cases h

theorem offsetSelector_timed {offset : ℤ} (h : InI64 offset) (sel : SelectorExpr) :
    (offsetSelector offset sel : Expr F).Timed := by
  unfold offsetSelector
  split_ifs
  · exact .range ⟨isDuration_zero, fun _ hd => (nomatch hd), h⟩ (.selector sel)
  · exact .selector sel

theorem parseSelectorTail_readsOn (name : String) (hc : r.Stands c)
    (hturns : c.size < turns) : ReadsOn r c (fun e _ => e.Timed)
      (parseSelectorTail r.p r.build turns name c) := by
  refine .bind (?_ : ReadsOn r c (fun _ _ => True) _) fun sel c₁ _ hstands₁ _ => ?_
  · split
    · rename_i htok
      have hbraces : ReadsClear r c (captureBraces r.p turns c) := by
        unfold captureBraces Parser.expect
        simp only [htok, if_true]
        refine .next (hc.2 (by rw [htok]; rfl)) (by rw [htok]; nofun) fun c' hlt _ _ hfit => ?_
        refine bracesLoop_readsOn 0 _ ?_ (by omega)
        rw [htok] at hfit
        refine hfit fun _ _ hover => ?_
        cases htok.symm.trans hover.1
      refine hbraces.bind fun braces c' _ hstands _ => ?_
      exact .bind_pure (fun fault h => parseSelector_fails h) fun _ _ => .ok hstands trivial
    · exact .ok hc trivial
  refine (parseOffset_readsOn hstands₁).bind fun offset c₂ _ hstands₂ hoffset => ?_
  exact .ok hstands₂ (offsetSelector_timed hoffset.1 sel)

/-! ## Expressions -/

abbrev ParsesAt (r : Reading F) (c : Parser F)
    (x : Eval (Expr F × Parser F)) : Prop :=
  ReadsOn r c (fun e c' => e.Timed ∧ c'.size < c.size) x

section
variable {expr : ℕ → Parse F (Expr F)} {depth : ℕ}
variable (hexpr : ∀ prec c, r.Clear c → c.size < depth →
  ParsesAt r c (expr prec c))
include hexpr

theorem argsLoop_readsOn (place : String) {args : List (Expr F)} (hc : r.Clear c)
    (hargs : ∀ a ∈ args, a.Timed) (hdepth : c.size < depth) (hturns : c.size < turns) :
    ReadsOn r c (fun args' c' => (∀ a ∈ args', a.Timed) ∧ r.Clear c')
      (argsLoop r.p expr place turns args c) := by
  induction turns generalizing args c with
  | zero => exact absurd hturns (not_lt_zero _)
  | succ turns ih =>
    refine (hexpr 0 c hc hdepth).bind fun e c' _ hstands he => ?_
    have hargs' : ∀ a ∈ args ++ [e], a.Timed := forall_mem_concat hargs he.1
    dsimp only
    split
    · rename_i htok
      exact .advance hstands htok rfl fun c'' hlt' hclear =>
        ih hclear hargs' (by omega) (by omega)
    · rename_i htok
      exact .advance hstands htok rfl fun c'' _ hclear => .ok hclear.stands ⟨hargs', hclear⟩
    · exact .invalid _

theorem parseArgs_readsOn (place : String) (hc : r.Clear c) (hdepth : c.size < depth)
    (hturns : c.size < turns) :
    ReadsOn r c (fun args c' => (∀ a ∈ args, a.Timed) ∧ r.Clear c')
      (parseArgs r.p expr place turns c) := by
  have hnil : ∀ a ∈ ([] : List (Expr F)), a.Timed := nofun
  unfold parseArgs
  split
  · rename_i htok
    exact .advance hc.stands htok rfl fun c' _ hclear => .ok hclear.stands ⟨hnil, hclear⟩
  · exact argsLoop_readsOn hexpr place hc hnil hdepth hturns

theorem parseCall_readsOn (name : String) (hc : r.Clear c) (hdepth : c.size < depth)
    (hturns : c.size < turns) :
    ReadsOn r c (fun e _ => e.Timed) (parseCall r.p expr turns name c) :=
  (parseArgs_readsOn hexpr _ hc hdepth hturns).bind fun _ _ _ hstands hargs =>
    .ok hstands (.call name hargs.1)

omit hexpr in
theorem parseTrailingGrouping_readsOn (hc : r.Clear c) (hturns : c.size < turns) :
    ReadsClear r c (parseTrailingGrouping r.p turns c) := by
  unfold parseTrailingGrouping
  split
  · rename_i htok
    exact labelsAfter_readsOn _ hc.stands htok rfl hturns
  · rename_i htok
    exact labelsAfter_readsOn _ hc.stands htok rfl hturns
  · exact .ok hc.stands hc

omit hexpr in
theorem splitParam_answers {op : AggregationOp} {name : String} {args : List (Expr F)}
    (hargs : ∀ a ∈ args, a.Timed) :
    Answers (fun split => (∀ a ∈ split.1, a.Timed) ∧ split.2.Timed) (splitParam op name args) := by
  unfold splitParam
  split_ifs
  · split
    · rename_i param e
      exact ⟨fun a ha => Option.mem_some_iff.mp ha ▸ hargs param List.mem_cons_self,
        hargs e (List.mem_cons_of_mem _ List.mem_cons_self)⟩
    · rfl
  · split
    · rename_i e
      exact ⟨fun a ha => (nomatch ha), hargs e List.mem_cons_self⟩
    · rfl

theorem parseAggregationBody_readsOn (op : AggregationOp) (name : String) (grouping : Grouping)
    (hc : r.Clear c) (hdepth : c.size < depth) (hturns : c.size < turns) :
    ReadsOn r c (fun e _ => e.Timed)
      (parseAggregationBody r.p expr turns op name grouping c) := by
  refine (parseArgs_readsOn hexpr _ hc hdepth hturns).bind fun args c₁ hle hstands hargs => ?_
  refine .bind_answers (splitParam_answers hargs.1) fun split hsplit => ?_
  refine .bind (?_ : ReadsClear r c₁ _) fun grouping' c₂ _ hstands₂ _ => ?_
  · split
    · exact parseTrailingGrouping_readsOn hargs.2 (by omega)
    · exact .ok hstands hargs.2
  exact .ok hstands₂ (.aggregation op grouping' hsplit.1 hsplit.2)

theorem parseLeadingGrouping_readsOn (op : AggregationOp) (name : String)
    (grouping : List String → Grouping) (hc : r.Stands c) (htok : c.tok = tok)
    (hplain : tok.plain = true) (hdepth : c.size ≤ depth) (hturns : c.size < turns) :
    ReadsOn r c (fun e _ => e.Timed)
      (parseLeadingGrouping r.p expr turns op name grouping c) := by
  refine .advance hc htok hplain fun c₁ hlt hclear => ?_
  refine (parseLabelList_readsOn hclear (by omega)).bind fun labels c₂ hle hstands _ => ?_
  exact .expect hstands rfl fun c₃ hlt' hclear' =>
    parseAggregationBody_readsOn hexpr op name _ hclear' (by omega) (by omega)

theorem parseIdentTail_readsOn (name : String) (hc : r.Stands c)
    (hdepth : c.size ≤ depth) (hturns : c.size < turns) :
    ReadsOn r c (fun e _ => e.Timed) (parseIdentTail r.p r.build expr turns name c) := by
  unfold parseIdentTail
  split
  · rename_i op _ htok
    exact parseLeadingGrouping_readsOn hexpr op name .by hc htok rfl hdepth hturns
  · rename_i op _ htok
    exact parseLeadingGrouping_readsOn hexpr op name .without hc htok rfl hdepth hturns
  · rename_i op _ htok
    exact .advance hc htok rfl fun c' hlt hclear =>
      parseAggregationBody_readsOn hexpr op name .none hclear (by omega) (by omega)
  · rename_i _ htok
    exact .advance hc htok rfl fun c' hlt hclear =>
      parseCall_readsOn hexpr name hclear (by omega) (by omega)
  · exact parseSelectorTail_readsOn name hc hturns

theorem parsePrimary_readsOn (hc : r.Clear c) (hdepth : c.size ≤ depth)
    (hturns : c.size < turns) :
    ParsesAt r c (parsePrimary r.p r.build expr turns c) := by
  unfold parsePrimary
  split
  · rename_i n htok
    exact .number hc htok fun c' hlt hclear => .ok hclear.stands ⟨.number n, hlt⟩
  · rename_i s htok
    exact .advance hc.stands htok rfl fun c' hlt hclear => .ok hclear.stands ⟨.str s, hlt⟩
  · rename_i htok
    refine .advance hc.stands htok rfl fun c₁ hlt hclear => ?_
    refine (hexpr 0 c₁ hclear (by omega)).bind fun e c₂ _ hstands₂ he => ?_
    exact .expect hstands₂ rfl fun c₃ hlt₃ hclear₃ => .ok hclear₃.stands ⟨.paren he.1, by omega⟩
  · rename_i name htok
    exact .word hc.stands htok fun c' hlt hstands =>
      (parseIdentTail_readsOn hexpr name hstands (by omega) (by omega)).imp
        fun e c'' hle he => ⟨he, by omega⟩
  · exact .invalid _

omit hexpr in
theorem postfixLoop_readsOn {e : Expr F} (he : e.Timed) (hc : r.Stands c)
    (hturns : c.size < turns) :
    ReadsOn r c (fun e' _ => e'.Timed) (postfixLoop r.p r.build turns e c) := by
  induction turns generalizing e c with
  | zero => exact absurd hturns (not_lt_zero _)
  | succ turns ih =>
    unfold postfixLoop
    split
    · rename_i htok
      refine .advance hc htok rfl fun c₁ hlt hclear => ?_
      refine (parseBracket_readsOn hclear).bind fun bracket c₂ hle₂ hstands₂ hbracket => ?_
      refine (parseOffset_readsOn hstands₂).bind fun offset c₃ hle₃ hstands₃ hoffset => ?_
      exact ih (.range ⟨hbracket.1, hbracket.2, hoffset.1⟩ he) hstands₃ (by omega)
    · rename_i htok
      refine (parseOffset_readsOn hc).bind fun offset c₁ _ hstands hoffset => ?_
      have hlt := hoffset.2 htok
      exact ih (.range ⟨isDuration_zero, fun _ hd => (nomatch hd), hoffset.1⟩ he) hstands
        (by omega)
    · exact .invalid _
    · exact .ok hc he

theorem unaryLoop_readsOn (hc : r.Clear c) (hdepth : c.size ≤ depth)
    (hturns : c.size < turns) : ParsesAt r c (unaryLoop r.p r.build expr turns c) := by
  induction turns generalizing c with
  | zero => exact absurd hturns (not_lt_zero _)
  | succ turns ih =>
    unfold unaryLoop
    split
    · rename_i htok
      refine .advance hc.stands htok rfl fun c₁ hlt hclear => ?_
      refine (ih hclear (by omega) (by omega)).bind fun e c₂ _ hstands₂ he => ?_
      exact .ok hstands₂ ⟨.binary _ (.number r.p.zero) he.1, by omega⟩
    · rename_i htok
      exact .advance hc.stands htok rfl fun c₁ hlt hclear =>
        (ih hclear (by omega) (by omega)).imp fun e c₂ _ he => ⟨he.1, he.2.trans hlt⟩
    · refine (parsePrimary_readsOn hexpr hc hdepth hturns).bind fun e c₁ _ hstands he => ?_
      exact (postfixLoop_readsOn he.1 hstands (by omega)).imp fun e' c₂ hle he' => ⟨he', by omega⟩

omit hexpr in
theorem plain_of_opPrecedence {prec : ℕ × BinaryOp} (h : opPrecedence tok = some prec) :
    tok.plain = true := by
  unfold opPrecedence at h
  split at h <;> first | rfl | cases h

theorem binaryLoop_readsOn (minPrec : ℕ) {lhs : Expr F} (hl : lhs.Timed)
    (hc : r.Stands c) (hdepth : c.size ≤ depth) (hturns : c.size < turns) :
    ReadsOn r c (fun e _ => e.Timed) (binaryLoop r.p expr minPrec turns lhs c) := by
  induction turns generalizing lhs c with
  | zero => exact absurd hturns (not_lt_zero _)
  | succ turns ih =>
    unfold binaryLoop
    split
    · exact .ok hc hl
    · rename_i prec op hprec
      split_ifs
      · exact .ok hc hl
      · refine .advance hc rfl (plain_of_opPrecedence hprec) fun c₁ hlt hclear => ?_
        refine (modifierLoop_readsOn op _ hclear (by omega)).bind fun head c₂ hle _ hclear₂ => ?_
        refine (hexpr (prec + 1) c₂ hclear₂ (by omega)).bind fun rhs c₃ _ hstands₃ hr => ?_
        exact ih (.binary head hl hr.1) hstands₃ (by omega) (by omega)

end

theorem parseBinary_readsOn (depth minPrec : ℕ) (hc : r.Clear c)
    (hdepth : c.size < depth) :
    ParsesAt r c (parseBinary r.p r.build depth minPrec c) := by
  induction depth generalizing minPrec c with
  | zero => exact absurd hdepth (not_lt_zero _)
  | succ depth ih =>
    have hexpr : ∀ prec c, r.Clear c → c.size < depth →
        ParsesAt r c (parseBinary r.p r.build depth prec c) :=
      fun prec c hc hd => ih prec hc hd
    refine (unaryLoop_readsOn hexpr hc (by omega) hdepth).bind fun lhs c₁ _ hstands hl => ?_
    exact (binaryLoop_readsOn hexpr minPrec hl.1 hstands (by omega) (by omega)).imp
      fun e c₂ hle he => ⟨he, by omega⟩

end

/-! ## Whole queries -/

section
variable (p : Platform F)

/-- No `offset` outside of the braces of a query is followed by a number of seconds whose
nanoseconds no `i64` holds. -/
def OffsetsFit (query : String) : Prop :=
  ∀ tok rest c, nextToken p query.toList = .ok (tok, rest) →
    Relation.ReflTransGen (Step p) (0, ⟨tok, rest⟩) (0, c) → ¬ OffsetOverflows p c

variable {p}

/-- **A query is parsed to an expression whose durations are in range, or refused**; the parser
always ends. In a debug build it overflows only if an offset does not fit, and accepts only texts
in which all do. -/
theorem parseExpr_spec {build : Build} (query : String) :
    (∀ e, parseExpr p build query = .ok e →
      e.Timed ∧ (build = .debug → OffsetsFit p query)) ∧
    parseExpr p build query ≠ .error .hang ∧
    (parseExpr p build query = .error .overflow → ¬ OffsetsFit p query) := by
  have hlexes := nextToken_lexes (p := p) query.toList
  unfold parseExpr OffsetsFit
  cases hfirst : nextToken p query.toList with
  | error fault =>
    rw [hfirst] at hlexes
    cases fault with
    | error e => exact ⟨nofun, nofun, nofun⟩
    | _ => cases hlexes
  | ok first =>
    obtain ⟨tok, rest⟩ := first
    rw [hfirst] at hlexes
    have hparse : ParsesAt ⟨p, build, tok, rest⟩ ⟨tok, rest⟩
        (parseBinary p build (rest.length + 2) 0 ⟨tok, rest⟩) :=
      parseBinary_readsOn _ _ ⟨hlexes.2, .refl⟩ (lt_succ_of_le (size_le _))
    simp only [ok_bind]
    cases hbinary : parseBinary p build (rest.length + 2) 0 ⟨tok, rest⟩ with
    | error fault =>
      rw [hbinary] at hparse
      refine ⟨nofun, fun h => hparse.1 (Except.error.inj h), fun h hfit => ?_⟩
      obtain ⟨c, hc, hout⟩ := hparse.2 (Except.error.inj h)
      exact hfit tok rest c rfl hc hout
    | ok out =>
      rw [hbinary] at hparse
      simp only [ok_bind]
      split
      · rename_i heof
        refine ⟨fun e' h => ⟨Except.ok.inj h ▸ hparse.2.2.1, ?_⟩, nofun, nofun⟩
        rintro rfl tok' rest' c htok hc
        cases htok
        exact not_offsetOverflows (hparse.2.1.2 (by rw [heof]; rfl)) heof hc
      · exact ⟨nofun, nofun, nofun⟩

end

end Parqtel.Query
