import Mathlib

/-!
# Searching text without regard to ASCII case

`findCi` looks for a lowercase needle in a text. It searches for one byte of the needle, in
both cases, and compares the needle around the places where it finds it; `anchorOf` picks
the byte that is likely the rarest. Whichever byte was the anchor, the search ends at the
first place of the needle in the lowercased text (`find_ci_eq_naive`).
-/

open List

namespace Parqtel.Text

abbrev Bytes := List UInt8

def utf8 (s : String) : Bytes := s.toUTF8.data.toList

def toAsciiLowercase (b : UInt8) : UInt8 := if 65 ≤ b ∧ b ≤ 90 then b + 32 else b

def toAsciiUppercase (b : UInt8) : UInt8 := if 97 ≤ b ∧ b ≤ 122 then b - 32 else b

def commonness (b : UInt8) : ℕ :=
  let c := Char.ofNat (toAsciiLowercase b).toNat
  if c = ' ' then 255
  else if c = 'e' then 250
  else if c = 't' then 240
  else if c = 'a' then 235
  else if c = 'o' then 230
  else if c = 'i' then 225
  else if c = 'n' then 220
  else if c = 's' then 215
  else if c = 'r' then 210
  else if c ∈ ['h', 'l', 'd'] then 190
  else if c ∈ ['c', 'u', 'm'] then 170
  else if '0' ≤ c ∧ c ≤ '9' then 150
  else if c ∈ ['f', 'p', 'g', 'w', 'y'] then 140
  else if c ∈ ['.', '-', '_', '/', ':', ','] then 120
  else if c ∈ ['b', 'v', 'k'] then 100
  else if c ∈ ['x', 'j', 'q', 'z'] then 40
  else 20

def anchorOf (needle : Bytes) : ℕ :=
  ((List.range needle.length).argmin fun i => commonness (needle.getD i 0)).getD 0

def needleAt (h n : Bytes) (start : ℕ) : Bool :=
  ((h.drop start).take n.length).map toAsciiLowercase = n

/-- The places of the anchor byte, from the first to the last where the needle still fits
around it. -/
def findCi (h n : Bytes) (anchor : ℕ) : Bool :=
  if n = [] then true
  else if h.length < n.length then false
  else
    let lo := toAsciiLowercase (n.getD anchor 0)
    let up := toAsciiUppercase (n.getD anchor 0)
    let last := h.length - (n.length - anchor)
    (List.range' anchor (last + 1 - anchor)).any fun i =>
      (h.getD i 0 = lo ∨ h.getD i 0 = up) ∧ needleAt h n (i - anchor)

def containsAsciiCi (haystack needleLower : String) : Bool :=
  findCi (utf8 haystack) (utf8 needleLower) (anchorOf (utf8 needleLower))

theorem infix_of_findCi {h n : Bytes} {anchor : ℕ} (hfound : findCi h n anchor = true) :
    n <:+: h.map toAsciiLowercase := by
  unfold findCi at hfound
  split_ifs at hfound with hnil hlen
  · exact hnil ▸ nil_infix
  · obtain ⟨i, -, hi⟩ := any_eq_true.mp hfound
    obtain ⟨-, hat⟩ := of_decide_eq_true hi
    rw [← of_decide_eq_true hat]
    exact ((List.take_prefix _ _).isInfix.trans (drop_suffix _ _).isInfix).map _

/-! ## The loop -/

def anchorAt (h n : Bytes) (anchor i : ℕ) : Bool :=
  h.getD i 0 = toAsciiLowercase (n.getD anchor 0) ∨ h.getD i 0 = toAsciiUppercase (n.getD anchor 0)

section
variable (memchr : UInt8 → Bytes → Option ℕ) (memchr2 : UInt8 → UInt8 → Bytes → Option ℕ)

def nextAnchor (n : Bytes) (anchor : ℕ) (window : Bytes) : Option ℕ :=
  let lo := toAsciiLowercase (n.getD anchor 0)
  let up := toAsciiUppercase (n.getD anchor 0)
  if lo = up then memchr lo window else memchr2 lo up window

/-- The loop of `find_ci`: the needle is compared around each place of the anchor byte. -/
def findFrom (h n : Bytes) (anchor last start : ℕ) : Option ℕ :=
  if start ≤ last then
    match nextAnchor memchr memchr2 n anchor ((h.drop start).take (last + 1 - start)) with
    | none => none
    | some offset =>
      if needleAt h n (start + offset - anchor) then some (start + offset - anchor)
      else findFrom h n anchor last (start + offset + 1)
  else none
termination_by last + 1 - start

/-- Where `find_ci` finds the needle. -/
def findPlace (h n : Bytes) (anchor : ℕ) : Option ℕ :=
  if n = [] then some 0
  else if h.length < n.length then none
  else findFrom memchr memchr2 h n anchor (h.length - (n.length - anchor)) anchor

end

/-- A lowercase needle prepared for repeated tests. -/
structure CiNeedle where
  lower : Bytes
  anchor : ℕ

def CiNeedle.new (needleLower : String) : CiNeedle :=
  ⟨utf8 needleLower, anchorOf (utf8 needleLower)⟩

def CiNeedle.isIn (c : CiNeedle) (haystack : String) : Bool :=
  findCi (utf8 haystack) c.lower c.anchor

def naiveFind (h n : Bytes) : Option ℕ :=
  (List.range (h.length + 1)).find? fun i => n.isPrefixOf (h.drop i)

variable {h n : Bytes} {anchor i : ℕ}

theorem eq_case_of_lowercase (b : UInt8) : b = toAsciiLowercase (toAsciiLowercase b) ∨
    b = toAsciiUppercase (toAsciiLowercase b) := by
  unfold toAsciiUppercase toAsciiLowercase
  grind

theorem anchorOf_lt (hn : n ≠ []) : anchorOf n < n.length := by
  unfold anchorOf
  cases hmin : (List.range n.length).argmin fun i => commonness (n.getD i 0) with
  | none => simp [argmin_eq_none, hn] at hmin
  | some i => exact mem_range.mp (argmin_mem hmin)

theorem needleAt_eq (i : ℕ) : needleAt h n i = n.isPrefixOf ((h.map toAsciiLowercase).drop i) := by
  rw [Bool.eq_iff_iff, isPrefixOf_iff_prefix, prefix_iff_eq_take, needleAt, decide_eq_true_eq,
    map_take, map_drop, eq_comm]

theorem anchorAt_of_needleAt (ha : anchor < n.length) (hat : needleAt h n i = true) :
    i + n.length ≤ h.length ∧ anchorAt h n anchor (i + anchor) = true := by
  have heq : ((h.drop i).take n.length).map toAsciiLowercase = n := of_decide_eq_true hat
  have hlen := congrArg List.length heq
  rw [length_map, length_take, length_drop] at hlen
  have hi : i + anchor < h.length := by omega
  have hbyte : n.getD anchor 0 = toAsciiLowercase h[i + anchor] := by
    rw [← heq]
    simp [getD_eq_getElem?_getD, ha, hi]
  rw [anchorAt, hbyte, getD_eq_getElem _ _ hi]
  exact ⟨by omega, decide_eq_true (eq_case_of_lowercase _)⟩

section
variable {memchr : UInt8 → Bytes → Option ℕ} {memchr2 : UInt8 → UInt8 → Bytes → Option ℕ}
variable (hmemchr : ∀ b window, memchr b window = window.findIdx? (· = b))
variable (hmemchr2 : ∀ b c window, memchr2 b c window = window.findIdx? fun x => x = b ∨ x = c)

include hmemchr hmemchr2

theorem nextAnchor_eq {last start : ℕ} (hlast : last < h.length) :
    nextAnchor memchr memchr2 n anchor ((h.drop start).take (last + 1 - start)) =
      (List.range' start (last + 1 - start)).findIdx? (anchorAt h n anchor) := by
  have hwindow : (h.drop start).take (last + 1 - start) =
      (List.range' start (last + 1 - start)).map fun i => h.getD i 0 := by
    refine ext_getElem (by simp; omega) fun j hj _ => ?_
    rw [length_take, length_drop] at hj
    simp [getD_eq_getElem?_getD, show start + j < h.length by omega]
  rw [hwindow]
  dsimp only [nextAnchor]
  split_ifs with hcase
  · rw [hmemchr, findIdx?_map]
    congr 1
    ext i
    simp only [Function.comp_apply, anchorAt, ← hcase, or_self]
  · rw [hmemchr2, findIdx?_map]
    rfl

/-- The loop finds the first place where the needle stands: the places that it jumps over lack the
anchor byte. -/
theorem findFrom_eq {last start : ℕ} (hlast : last < h.length)
    (hanchor : ∀ i ∈ List.range' start (last + 1 - start), needleAt h n (i - anchor) = true →
      anchorAt h n anchor i = true) : findFrom memchr memchr2 h n anchor last start =
      ((List.range' start (last + 1 - start)).find? fun i => needleAt h n (i - anchor)).map
        (· - anchor) := by
  induction hk : last + 1 - start using Nat.strong_induction_on generalizing start with
  | _ k ih =>
    rw [findFrom, nextAnchor_eq hmemchr hmemchr2 hlast]
    rw [hk] at hanchor ⊢
    split_ifs with hle
    · split
      · next hnone =>
        have hall := findIdx?_eq_none_iff.mp hnone
        rw [find?_eq_none.mpr fun i hi hat => ?_, Option.map_none]
        exact Bool.false_ne_true ((hall i hi).symm.trans (hanchor i hi hat))
      · next offset hsome =>
        obtain ⟨hlt, -, hskipped⟩ := findIdx?_eq_some_iff_getElem.mp hsome
        rw [length_range'] at hlt
        have hsplit : List.range' start k = List.range' start offset ++
            (start + offset) :: List.range' (start + offset + 1) (k - offset - 1) := by
          rw [← range'_succ, show k = offset + (k - offset - 1 + 1) by omega, range'_append_1]
          congr 2
          omega
        have hskip :
            (List.range' start offset).find? (fun i => needleAt h n (i - anchor)) = none := by
          refine find?_eq_none.mpr fun i hi hat => ?_
          obtain ⟨hi, hlt'⟩ := mem_range'_1.mp hi
          have hno := hskipped (i - start) (by omega)
          rw [getElem_range', one_mul, Nat.add_sub_cancel' hi] at hno
          exact hno (hanchor i (mem_range'_1.mpr ⟨hi, by omega⟩) hat)
        rw [ih (k - offset - 1) (by omega) (fun i hi => hanchor i ?_) (by omega), hsplit,
          find?_append, hskip, Option.none_or, find?_cons]
        · split_ifs with hat
          · rw [hat]
            rfl
          · rw [Bool.eq_false_of_not_eq_true hat]
        · rw [mem_range'_1] at hi ⊢
          omega
    · rw [show k = 0 by omega]
      rfl

theorem findPlace_eq (h : Bytes) (ha : n ≠ [] → anchor < n.length) :
    findPlace memchr memchr2 h n anchor = naiveFind (h.map toAsciiLowercase) n ∧
      findCi h n anchor = (findPlace memchr memchr2 h n anchor).isSome := by
  unfold findPlace naiveFind findCi
  simp only [length_map, ← needleAt_eq]
  split_ifs with hnil hlen
  · rw [range_succ_eq_map, find?_cons_of_pos (by simp [hnil, needleAt])]
    exact ⟨rfl, rfl⟩
  · refine ⟨(find?_eq_none.mpr fun i _ hat => ?_).symm, rfl⟩
    have := (anchorAt_of_needleAt (ha hnil) hat).1
    omega
  · have ha := ha hnil
    have hanchor : ∀ i ∈ List.range' anchor (h.length - (n.length - anchor) + 1 - anchor),
        needleAt h n (i - anchor) = true → anchorAt h n anchor i = true := by
      intro i hi hat
      have hcase := (anchorAt_of_needleAt ha hat).2
      rwa [Nat.sub_add_cancel (mem_range'_1.mp hi).1] at hcase
    rw [findFrom_eq hmemchr hmemchr2 (by omega) hanchor]
    constructor
    · -- no place behind the last one leaves room for the needle
      have hsplit : List.range (h.length + 1) = List.range (h.length - n.length + 1) ++
          (List.range n.length).map (h.length - n.length + 1 + ·) := by
        rw [← range_add]
        congr 1
        omega
      have hnone : ∀ i ∈ (List.range n.length).map (h.length - n.length + 1 + ·),
          ¬needleAt h n i = true := by
        intro i hi hat
        obtain ⟨j, -, rfl⟩ := mem_map.mp hi
        have := (anchorAt_of_needleAt ha hat).1
        omega
      rw [hsplit, find?_append, find?_eq_none.mpr hnone, Option.or_none, range'_eq_map_range,
        find?_map, Option.map_map]
      simp only [Function.comp_def, Nat.add_sub_cancel_left, Option.map_id']
      congr 2
      omega
    · rw [Option.isSome_map, Bool.eq_iff_iff, find?_isSome, any_eq_true]
      refine exists_congr fun i => and_congr_right fun hi => ?_
      rw [decide_eq_true_eq]
      exact ⟨And.right, fun hat => ⟨of_decide_eq_true (hanchor i hi hat), hat⟩⟩

/-- **The search is the naive one**: it ends at the first place where the lowercased text has the
needle, and finds nothing only if there is none. -/
theorem find_ci_eq_naive (h n : Bytes) :
    findPlace memchr memchr2 h n (anchorOf n) = naiveFind (h.map toAsciiLowercase) n ∧
      findCi h n (anchorOf n) = (findPlace memchr memchr2 h n (anchorOf n)).isSome ∧
      ∀ haystack needleLower, (CiNeedle.new needleLower).isIn haystack =
        (naiveFind ((utf8 haystack).map toAsciiLowercase) (utf8 needleLower)).isSome := by
  have hplace {h n : Bytes} := findPlace_eq hmemchr hmemchr2 h (n := n) anchorOf_lt
  refine ⟨hplace.1, hplace.2, fun haystack needle => ?_⟩
  rw [← hplace.1]
  exact hplace.2

end

theorem find_ci_eq_naive_timeout :
    let first : UInt8 → Bytes → Option ℕ := fun b window => window.findIdx? (· = b)
    let first2 : UInt8 → UInt8 → Bytes → Option ℕ :=
      fun b c window => window.findIdx? fun x => x = b ∨ x = c
    let text := utf8 "retry: TIMEOUT"
    findPlace first first2 text (utf8 "time") (anchorOf (utf8 "time")) =
        naiveFind (text.map toAsciiLowercase) (utf8 "time") ∧
      naiveFind (text.map toAsciiLowercase) (utf8 "time") = some 7 :=
  ⟨(find_ci_eq_naive (fun _ _ => rfl) (fun _ _ _ => rfl) _ _).1, by decide⟩

end Parqtel.Text
