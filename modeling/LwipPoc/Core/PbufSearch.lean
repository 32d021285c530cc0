import LwipPoc.Core.PbufBytes

/-!
# Comparing and searching a chain of pbufs

`pbuf_memcmp`, `pbuf_memfind` and `pbuf_strstr` of `pbuf.c`, and when they do what they are for.

* `pbuf_memcmp` looks only for the position at which it starts. Behind the end of the chain it compares with the
  zeros that `pbuf_get_at` returns there.
* `pbuf_memfind` goes on **behind the first byte that differs**. It steps over an occurrence that begins before that
  byte (`Attempts`).

The buffers of the caller are lists, with their lengths. A loop that does not end would be `none`.
-/

namespace Lwip.Core

variable {p : Pbuf} {ps q : List Pbuf} {s s2 mem : List (BitVec 8)} {i j k n r offset start fuel : ℕ}

/-! ### The functions -/

/-- The loop of `pbuf_memcmp` from index `i` on. -/
def memcmpLoop (q : List Pbuf) (start i : ℕ) : List (BitVec 8) → ℕ
  | [] => 0
  | b :: s2 => if pbufGetAt q ((start + i) % 2 ^ 16) ≠ b then (i + 1) % 2 ^ 16 else memcmpLoop q start (i + 1) s2

/-- `pbuf_memcmp`. -/
def pbufMemcmp (p : List Pbuf) (offset : ℕ) (s2 : List (BitVec 8)) : ℕ :=
  match pbufSeek p offset with
  | ([], _) => 0xffff
  | (q, start) => memcmpLoop q start 0 s2

/-- The loop of `pbuf_memfind`. -/
def memfindLoop (p : List Pbuf) (mem : List (BitVec 8)) (max : ℕ) : ℕ → ℕ → Option ℕ
  | 0, _ => none
  | fuel + 1, i =>
    if i ≤ max then
      let plus := pbufMemcmp p i mem
      if plus = 0 then some i else memfindLoop p mem max fuel ((i + plus) % 2 ^ 16)
    else some 0xffff

/-- `pbuf_memfind`. -/
def pbufMemfind (p : List Pbuf) (mem : List (BitVec 8)) (startOffset : ℕ) : Option ℕ :=
  if mem.length + startOffset ≤ pbufTotLen p then
    memfindLoop p mem ((pbufTotLen p + 2 ^ 16 - mem.length) % 2 ^ 16) (pbufTotLen p + 2) startOffset
  else some 0xffff

/-- `pbuf_strstr`, for the characters of a string before its end, or a null pointer. -/
def pbufStrstr (p : List Pbuf) (substr : Option (List (BitVec 8))) : Option ℕ :=
  match substr with
  | none => some 0xffff
  | some substr =>
    if substr = [] ∨ pbufTotLen p = 0xffff then some 0xffff
    else if 0xffff ≤ substr.length then some 0xffff
    else pbufMemfind p substr 0

/-! ### What they are for -/

/-- The first index at which two strings differ, or the end of the shorter one. -/
def firstDiff : List (BitVec 8) → List (BitVec 8) → ℕ
  | x :: xs, y :: ys => if x = y then firstDiff xs ys + 1 else 0
  | _, _ => 0

theorem firstDiff_cons (x y : BitVec 8) (xs ys : List (BitVec 8)) :
    firstDiff (x :: xs) (y :: ys) = if x = y then firstDiff xs ys + 1 else 0 := rfl

/-- A comparison of a string from an offset on: zero for equal ones, one plus the first index that differs, or
`0xffff` if the string is too short. -/
def memcmpResult (s : List (BitVec 8)) (offset : ℕ) (s2 : List (BitVec 8)) : ℕ :=
  if s.length < offset + s2.length then 0xffff
  else if (s.drop offset).take s2.length = s2 then 0
  else firstDiff (s.drop offset) s2 + 1

/-- The string has the pattern at this index. -/
def OccursAt (s mem : List (BitVec 8)) (i : ℕ) : Prop := i ≤ s.length ∧ mem <+: s.drop i

instance : Decidable (OccursAt s mem i) := inferInstanceAs (Decidable (_ ∧ _))

/-- The smallest index from a start on at which the string has the pattern, or `0xffff` if there is none. -/
def memfindResult (s mem : List (BitVec 8)) (start : ℕ) : ℕ :=
  ((List.range (s.length + 1)).find? fun i ↦ start ≤ i ∧ OccursAt s mem i).getD 0xffff

attribute [local simp] memcmpLoop memfindLoop

/-! ### `pbuf_memcmp` -/

/-- What `pbuf_memcmp` compares with. -/
def memcmpView (q : List Pbuf) (start i n : ℕ) : List (BitVec 8) :=
  (List.range n).map fun j ↦ pbufGetAt q ((start + i + j) % 2 ^ 16)

theorem memcmpView_succ (q : List Pbuf) (start i n : ℕ) :
    memcmpView q start i (n + 1) = pbufGetAt q ((start + i) % 2 ^ 16) :: memcmpView q start (i + 1) n := by
  rw [memcmpView, List.range_succ_eq_map, List.map_cons, List.map_map, memcmpView]
  congr 1
  refine List.map_congr_left fun j _ ↦ ?_
  simp only [Function.comp_apply, Nat.succ_eq_add_one]
  congr 2
  omega

/-- **The loop of `pbuf_memcmp`.** -/
theorem memcmpLoop_eq (hlen : i + s2.length < 2 ^ 16) :
    memcmpLoop q start i s2 = if memcmpView q start i s2.length = s2 then 0
      else i + firstDiff (memcmpView q start i s2.length) s2 + 1 := by
  induction s2 generalizing i with
  | nil => rfl
  | cons b s2 ih =>
    rw [List.length_cons] at hlen
    rw [memcmpLoop, ih (by omega), List.length_cons, memcmpView_succ, firstDiff_cons]
    by_cases hb : pbufGetAt q ((start + i) % 2 ^ 16) = b
    · simp only [hb, ne_eq, not_true_eq_false, if_false, List.cons.injEq, true_and, if_true]
      split_ifs
      · rfl
      · omega
    · rw [if_pos hb, if_neg fun h ↦ hb (List.cons.inj h).1, if_neg hb, Nat.mod_eq_of_lt (by omega)]

theorem firstDiff_lt {xs ys : List (BitVec 8)} (hlen : xs.length = ys.length) (hne : xs ≠ ys) :
    firstDiff xs ys < ys.length := by
  induction xs generalizing ys with
  | nil => exact absurd (List.length_eq_zero_iff.1 hlen.symm).symm hne
  | cons x xs ih =>
    cases ys with
    | nil => cases hlen
    | cons y ys =>
      rw [firstDiff_cons, List.length_cons]
      split_ifs with hxy
      · subst hxy
        exact Nat.succ_lt_succ (ih (Nat.succ.inj hlen) fun h ↦ hne (h ▸ rfl))
      · exact Nat.succ_pos _

theorem firstDiff_self (xs : List (BitVec 8)) : firstDiff xs xs = xs.length := by
  induction xs with
  | nil => rfl
  | cons x xs ih => rw [firstDiff_cons, if_pos rfl, ih, List.length_cons]

/-- Only as many bytes as the other string has matter. -/
theorem firstDiff_take (xs ys : List (BitVec 8)) : firstDiff (xs.take ys.length) ys = firstDiff xs ys := by
  induction xs generalizing ys with
  | nil => rw [List.take_nil]
  | cons x xs ih =>
    cases ys with
    | nil => rfl
    | cons y ys => rw [List.length_cons, List.take_succ_cons, firstDiff_cons, firstDiff_cons, ih]

theorem length_memcmpView : (memcmpView q start i n).length = n := by rw [memcmpView, List.length_map, List.length_range]

theorem getElem?_memcmpView (hjn : j < n) :
    (memcmpView q start i n)[j]? = some (pbufGetAt q ((start + i + j) % 2 ^ 16)) := by
  rw [memcmpView, List.getElem?_map, List.getElem?_range hjn, Option.map_some]

theorem length_seek_le (hseek : pbufSeek ps offset = (q, start)) : (pbufBytes q).length ≤ (pbufBytes ps).length := by
  induction ps generalizing offset with
  | nil => rw [← (Prod.mk.inj hseek).1]
  | cons p ps ih =>
    rw [pbufSeek] at hseek
    split_ifs at hseek
    · rw [pbufBytes_cons, List.length_append]
      exact Nat.le_add_left_of_le (ih hseek)
    · rw [(Prod.mk.inj hseek).1]

/-- Where the walk ends, and what is behind it. -/
theorem seek_spec (hseek : pbufSeek ps offset = (q, start)) :
    (pbufBytes q).drop start = (pbufBytes ps).drop offset ∧ (q = [] ↔ (pbufBytes ps).length ≤ offset) := by
  have hdrop := (pbufSeek_eq ps offset).1
  have hnil := @pbufSeek_eq_nil_iff ps offset
  rw [hseek] at hdrop hnil
  exact ⟨hdrop, hnil⟩

/-- The view of a chain that has enough bytes. -/
theorem memcmpView_eq (hseek : pbufSeek ps offset = (q, start)) (hlen : (pbufBytes ps).length < 2 ^ 16)
    (hfits : offset + n ≤ (pbufBytes ps).length) (hlt : offset < (pbufBytes ps).length) :
    memcmpView q start 0 n = ((pbufBytes ps).drop offset).take n := by
  obtain ⟨hdrop, -⟩ := seek_spec hseek
  have hlengths := congrArg List.length hdrop
  rw [List.length_drop, List.length_drop] at hlengths
  have hbound : (pbufBytes q).length ≤ (pbufBytes ps).length := length_seek_le hseek
  refine List.ext_getElem? fun j ↦ ?_
  by_cases hj : j < n
  · have hget : (pbufBytes q)[start + j]? = (pbufBytes ps)[offset + j]? := by
      rw [← List.getElem?_drop, hdrop, List.getElem?_drop]
    have hsome : (pbufBytes ps)[offset + j]? = some (pbufBytes ps)[offset + j] := List.getElem?_eq_getElem (by omega)
    rw [getElem?_memcmpView hj, List.getElem?_take_of_lt hj, List.getElem?_drop, hsome, pbufGetAt_eq, Nat.add_zero,
      Nat.mod_eq_of_lt (by omega), List.getD_eq_getElem?_getD, hget, hsome, Option.getD_some]
  · rw [List.getElem?_eq_none (by rw [length_memcmpView]; omega),
      List.getElem?_eq_none (by rw [List.length_take]; omega)]

/-- **`pbuf_memcmp` with enough bytes** compares with them. -/
theorem pbufMemcmp_eq_of_fits (hlen : (pbufBytes ps).length < 2 ^ 16)
    (hfits : offset + s2.length ≤ (pbufBytes ps).length) (hlt : offset < (pbufBytes ps).length) :
    pbufMemcmp ps offset s2 = memcmpResult (pbufBytes ps) offset s2 := by
  obtain ⟨⟨q, start⟩, hseek⟩ : ∃ r, pbufSeek ps offset = r := ⟨_, rfl⟩
  cases q with
  | nil => exact absurd ((seek_spec hseek).2.1 rfl) (Nat.not_le_of_lt hlt)
  | cons q qs =>
    simp only [pbufMemcmp, hseek]
    rw [memcmpLoop_eq (by omega), memcmpView_eq hseek hlen hfits hlt, firstDiff_take, memcmpResult,
      if_neg (Nat.not_lt_of_le hfits), Nat.zero_add]

/-- `pbuf_memcmp` from the end on, or from behind it. -/
theorem pbufMemcmp_of_le (hle : (pbufBytes ps).length ≤ offset) (s2 : List (BitVec 8)) :
    pbufMemcmp ps offset s2 = 0xffff := by
  obtain ⟨⟨q, start⟩, hseek⟩ : ∃ r, pbufSeek ps offset = r := ⟨_, rfl⟩
  obtain rfl : q = [] := (seek_spec hseek).2.2 hle
  simp only [pbufMemcmp, hseek]

/-- **A difference at the last of 65535 places only**, by the bytes that `pbuf_get_at` returns: its index and one is
`0xffff`, too. -/
def DiffersAtLast (ps : List Pbuf) (offset : ℕ) (s2 : List (BitVec 8)) : Prop :=
  s2.length = 0xffff ∧ firstDiff (memcmpView (pbufSeek ps offset).1 (pbufSeek ps offset).2 0 0xffff) s2 = 0xfffe

/-- **When `pbuf_memcmp` returns what it is for.** It does if there are enough bytes, but for the empty comparison at
the end, and it finds out that there are too few if there is not even the first one. With some of them, it is right
only if the one difference is at an index that happens to be the answer. -/
theorem pbufMemcmp_eq_iff (hlen : (pbufBytes ps).length < 2 ^ 16) (hn : s2.length < 2 ^ 16) :
    pbufMemcmp ps offset s2 = memcmpResult (pbufBytes ps) offset s2 ↔
      (offset + s2.length ≤ (pbufBytes ps).length ∧ (s2 = [] → offset < (pbufBytes ps).length)) ∨
      ((pbufBytes ps).length ≤ offset ∧ (pbufBytes ps).length < offset + s2.length) ∨
      (offset < (pbufBytes ps).length ∧ (pbufBytes ps).length < offset + s2.length ∧ DiffersAtLast ps offset s2) := by
  rcases Nat.lt_or_ge offset (pbufBytes ps).length with hlt | hle
  · rcases Nat.lt_or_ge (pbufBytes ps).length (offset + s2.length) with hshort | hfits
    · have hresult : memcmpResult (pbufBytes ps) offset s2 = 0xffff := if_pos hshort
      have hloop : pbufMemcmp ps offset s2 =
          if memcmpView (pbufSeek ps offset).1 (pbufSeek ps offset).2 0 s2.length = s2 then 0
          else firstDiff (memcmpView (pbufSeek ps offset).1 (pbufSeek ps offset).2 0 s2.length) s2 + 1 := by
        rw [← Nat.zero_add (firstDiff _ _), ← memcmpLoop_eq (by omega), pbufMemcmp]
        obtain ⟨⟨q, start⟩, hseek⟩ : ∃ r, pbufSeek ps offset = r := ⟨_, rfl⟩
        rw [hseek]
        cases q with
        | nil => exact absurd ((seek_spec hseek).2.1 rfl) (Nat.not_le_of_lt hlt)
        | cons q qs => rfl
      have hcond : pbufMemcmp ps offset s2 = 0xffff ↔ DiffersAtLast ps offset s2 := by
        rw [hloop, DiffersAtLast]
        split_ifs with heq
        · refine ⟨fun h ↦ absurd h (by decide), fun ⟨hlast, hdiff⟩ ↦ ?_⟩
          rw [← hlast, heq, firstDiff_self, hlast] at hdiff
          exact absurd hdiff (by decide)
        · have hdiff := firstDiff_lt length_memcmpView heq
          constructor
          · intro h
            have hlast : s2.length = 0xffff := by omega
            exact ⟨hlast, by rw [← hlast]; omega⟩
          · rintro ⟨hlast, h⟩
            rw [hlast, h]
      rw [hresult, hcond]
      refine ⟨fun h ↦ Or.inr (Or.inr ⟨hlt, hshort, h⟩), ?_⟩
      rintro (⟨h, -⟩ | ⟨h, -⟩ | ⟨-, -, h⟩)
      · omega
      · omega
      · exact h
    · exact ⟨fun _ ↦ Or.inl ⟨hfits, fun _ ↦ hlt⟩, fun _ ↦ pbufMemcmp_eq_of_fits hlen hfits hlt⟩
  · rw [pbufMemcmp_of_le hle, memcmpResult]
    by_cases hshort : (pbufBytes ps).length < offset + s2.length
    · rw [if_pos hshort]
      exact ⟨fun _ ↦ Or.inr (Or.inl ⟨hle, hshort⟩), fun _ ↦ rfl⟩
    · have hnil : s2 = [] := List.length_eq_zero_iff.1 (by omega)
      subst hnil
      rw [if_neg hshort, List.length_nil, List.take_zero, if_pos rfl]
      refine ⟨fun h ↦ absurd h (by decide), ?_⟩
      rintro (⟨-, h⟩ | ⟨-, h⟩ | ⟨h, -, -⟩)
      · exact absurd (h rfl) (Nat.not_lt_of_le hle)
      · exact absurd h hshort
      · omega

/-- Three bytes in two pbufs. -/
theorem pbufMemcmp_eq_iff_three :
    pbufMemcmp [⟨[1, 2], 3⟩, ⟨[3], 1⟩] 1 [2, 4] = 2 ∧ pbufMemcmp [⟨[1, 2], 3⟩, ⟨[3], 1⟩] 3 [2] = 0xffff :=
  ⟨(pbufMemcmp_eq_iff (by decide) (by decide)).2 (Or.inl (by decide)),
    (pbufMemcmp_eq_iff (by decide) (by decide)).2 (Or.inr (Or.inl (by decide)))⟩

/-- **A zero behind the end**: a string of one byte is equal to one of two. And the empty string is not found at the
end. -/
theorem pbufMemcmp_reads_behind_end :
    Totals [⟨[1], 1⟩] ∧ pbufBytes [⟨[1], 1⟩] = [1] ∧ memcmpResult [1] 0 [1, 0] = 0xffff ∧
      pbufMemcmp [⟨[1], 1⟩] 0 [1, 0] = 0 ∧ memcmpResult [1] 1 [] = 0 ∧ pbufMemcmp [⟨[1], 1⟩] 1 [] = 0xffff := by
  decide

/-! ### `pbuf_memfind` -/

/-- **Failed attempts**: beginnings of the pattern, each with a byte behind it with which the pattern does not go
on. -/
inductive Attempts (mem : List (BitVec 8)) : List (BitVec 8) → Prop
  | nil : Attempts mem []
  | cons {k : ℕ} {c : BitVec 8} {t : List (BitVec 8)} (hk : k < mem.length) (hc : mem[k]? ≠ some c)
    (ht : Attempts mem t) : Attempts mem (mem.take k ++ c :: t)

/-- An index is the first one from a start on at which the string has the pattern. -/
def FirstAt (s mem : List (BitVec 8)) (start r : ℕ) : Prop :=
  start ≤ r ∧ OccursAt s mem r ∧ ∀ j, start ≤ j → j < r → ¬ OccursAt s mem j

/-- The string does not go on with the pattern: its longest beginning that is there, and the byte behind it. -/
theorem exists_attempt (hlen : mem.length ≤ s.length) (hne : ¬ mem <+: s) :
    ∃ c u, s = mem.take (firstDiff s mem) ++ c :: u ∧ firstDiff s mem < mem.length ∧
      mem[firstDiff s mem]? ≠ some c := by
  induction s generalizing mem with
  | nil => exact absurd (List.length_eq_zero_iff.1 (Nat.le_zero.1 hlen) ▸ List.prefix_rfl) hne
  | cons x s ih =>
    cases mem with
    | nil => exact absurd (List.nil_prefix) hne
    | cons y mem =>
      rw [firstDiff_cons]
      split_ifs with hxy
      · subst hxy
        obtain ⟨c, u, hs, hk, hc⟩ := ih (Nat.le_of_succ_le_succ hlen) fun h ↦
          hne (List.cons_prefix_cons.2 ⟨rfl, h⟩)
        refine ⟨c, u, ?_, Nat.succ_lt_succ hk, by rwa [List.getElem?_cons_succ]⟩
        rw [List.take_succ_cons, List.cons_append, ← hs]
      · exact ⟨x, s, rfl, Nat.succ_pos _, fun h ↦ hxy (Option.some.inj h).symm⟩

/-- A failed attempt is one: the pattern is not there, and it fails at the byte behind the beginning. -/
theorem firstDiff_attempt {c : BitVec 8} (hk : k < mem.length) (hc : mem[k]? ≠ some c) (u : List (BitVec 8)) :
    firstDiff (mem.take k ++ c :: u) mem = k ∧ ¬ mem <+: mem.take k ++ c :: u := by
  induction mem generalizing k with
  | nil => exact absurd hk (Nat.not_lt_zero _)
  | cons y mem ih =>
    cases k with
    | zero =>
      have hne : c ≠ y := fun h ↦ hc (by rw [h]; rfl)
      refine ⟨if_neg hne, fun h ↦ hne (List.cons_prefix_cons.1 h).1.symm⟩
    | succ k =>
      rw [List.length_cons] at hk
      rw [List.getElem?_cons_succ] at hc
      obtain ⟨hdiff, hpre⟩ := ih (Nat.lt_of_succ_lt_succ hk) hc
      rw [List.take_succ_cons, List.cons_append, firstDiff_cons, if_pos rfl, hdiff]
      exact ⟨rfl, fun h ↦ hpre (List.cons_prefix_cons.1 h).2⟩

theorem memcmpResult_eq_zero_iff (hfits : i + mem.length ≤ s.length) :
    memcmpResult s i mem = 0 ↔ mem <+: s.drop i := by
  rw [memcmpResult, if_neg (Nat.not_lt_of_le hfits), List.prefix_iff_eq_take]
  split_ifs with h
  · exact ⟨fun _ ↦ h.symm, fun _ ↦ rfl⟩
  · exact ⟨fun h' ↦ h'.elim, fun h' ↦ absurd h'.symm h⟩

theorem memcmpResult_of_not_prefix (hfits : i + mem.length ≤ s.length) (hne : ¬ mem <+: s.drop i) :
    memcmpResult s i mem = firstDiff (s.drop i) mem + 1 := by
  have hzero := mt (memcmpResult_eq_zero_iff hfits).1 hne
  rw [memcmpResult, if_neg (Nat.not_lt_of_le hfits)] at hzero ⊢
  split_ifs at hzero ⊢ with h
  · exact absurd rfl hzero
  · rfl

/-- A round of the search: it is done, or it goes on behind the first byte that differs. -/
theorem memfindLoop_succ (hlen : (pbufBytes ps).length < 2 ^ 16) (hpos : 0 < mem.length)
    (hfits : i + mem.length ≤ (pbufBytes ps).length) :
    memfindLoop ps mem ((pbufBytes ps).length - mem.length) (fuel + 1) i =
      if mem <+: (pbufBytes ps).drop i then some i
      else memfindLoop ps mem ((pbufBytes ps).length - mem.length) fuel
        (i + (firstDiff ((pbufBytes ps).drop i) mem + 1)) := by
  have hcmp := pbufMemcmp_eq_of_fits hlen hfits (by omega)
  rw [memfindLoop, if_pos (by omega)]
  simp only [hcmp]
  by_cases hpre : mem <+: (pbufBytes ps).drop i
  · rw [if_pos ((memcmpResult_eq_zero_iff hfits).2 hpre), if_pos hpre]
  · have hle : mem.length ≤ ((pbufBytes ps).drop i).length := by
      rw [List.length_drop]
      omega
    obtain ⟨-, -, -, hk, -⟩ := exists_attempt hle hpre
    rw [if_neg (mt (memcmpResult_eq_zero_iff hfits).1 hpre), if_neg hpre, memcmpResult_of_not_prefix hfits hpre,
      Nat.mod_eq_of_lt (by omega)]

/-- **The search ends.** It has found an index to which failed attempts lead, or there is none. -/
theorem memfindLoop_sound (hlen : (pbufBytes ps).length < 2 ^ 16) (hpos : 0 < mem.length)
    (hfuel : (pbufBytes ps).length < fuel + i) (hle : mem.length ≤ (pbufBytes ps).length) :
    ∃ r, memfindLoop ps mem ((pbufBytes ps).length - mem.length) (fuel + 1) i = some r ∧
      (r ≠ 0xffff → i ≤ r ∧ OccursAt (pbufBytes ps) mem r ∧ Attempts mem (((pbufBytes ps).drop i).take (r - i))) := by
  induction fuel generalizing i with
  | zero =>
    rw [memfindLoop, if_neg (by omega)]
    exact ⟨_, rfl, fun h ↦ absurd rfl h⟩
  | succ fuel ih =>
    by_cases hfits : i + mem.length ≤ (pbufBytes ps).length
    · rw [memfindLoop_succ hlen hpos hfits]
      by_cases hpre : mem <+: (pbufBytes ps).drop i
      · rw [if_pos hpre]
        refine ⟨i, rfl, fun _ ↦ ⟨le_rfl, ⟨by omega, hpre⟩, ?_⟩⟩
        rw [Nat.sub_self, List.take_zero]
        exact Attempts.nil
      · rw [if_neg hpre]
        obtain ⟨r, hr, hfound⟩ := @ih (i + (firstDiff ((pbufBytes ps).drop i) mem + 1)) (by omega)
        refine ⟨r, hr, fun hne ↦ ?_⟩
        obtain ⟨hir, hoccurs, hattempts⟩ := hfound hne
        refine ⟨by omega, hoccurs, ?_⟩
        -- the attempt that has failed here, and those behind it
        have hroom : mem.length ≤ ((pbufBytes ps).drop i).length := by
          rw [List.length_drop]
          omega
        obtain ⟨c, u, hs, hk, hc⟩ := exists_attempt hroom hpre
        generalize firstDiff ((pbufBytes ps).drop i) mem = k at hs hk hc hir hattempts
        have hfront : (mem.take k ++ [c]).length = k + 1 := by
          rw [List.length_append, List.length_take, Nat.min_eq_left (Nat.le_of_lt hk)]
          rfl
        rw [← List.drop_drop, hs, ← List.singleton_append, ← List.append_assoc, List.drop_left' hfront] at hattempts
        have hcut : r - i = (mem.take k ++ [c]).length + (r - (i + (k + 1))) := by omega
        rw [hs, ← List.singleton_append, ← List.append_assoc, hcut, List.take_length_add_append, List.append_assoc,
          List.singleton_append]
        exact Attempts.cons hk hc hattempts
    · rw [memfindLoop, if_neg (by omega)]
      exact ⟨_, rfl, fun h ↦ absurd rfl h⟩

/-- **The search finds** an index to which failed attempts lead. -/
theorem memfindLoop_complete {t u : List (BitVec 8)} (hlen : (pbufBytes ps).length < 2 ^ 16) (hpos : 0 < mem.length)
    (ht : Attempts mem t) (hs : (pbufBytes ps).drop i = t ++ u) (hu : mem <+: u) (hfuel : t.length ≤ fuel) :
    memfindLoop ps mem ((pbufBytes ps).length - mem.length) (fuel + 1) i = some (i + t.length) := by
  have hlengths := congrArg List.length hs
  rw [List.length_drop, List.length_append] at hlengths
  have hmem := hu.length_le
  induction ht generalizing i fuel with
  | nil =>
    rw [memfindLoop_succ hlen hpos (by omega), if_pos (by rw [hs]; exact hu)]
    rfl
  | @cons k c t hk hc ht ih =>
    rw [List.append_assoc, List.cons_append] at hs
    obtain ⟨hdiff, hpre⟩ := firstDiff_attempt hk hc (t ++ u)
    have hfront : (mem.take k ++ [c]).length = k + 1 := by
      rw [List.length_append, List.length_take, Nat.min_eq_left (Nat.le_of_lt hk)]
      rfl
    have hlength : (mem.take k ++ c :: t).length = k + 1 + t.length := by
      rw [← List.singleton_append, ← List.append_assoc, List.length_append, hfront]
    rw [hlength] at hfuel hlengths ⊢
    rw [memfindLoop_succ hlen hpos (by omega), hs, if_neg hpre, hdiff]
    have hrest : (pbufBytes ps).drop (i + (k + 1)) = t ++ u := by
      rw [← List.drop_drop, hs, ← List.singleton_append, ← List.append_assoc, List.drop_left' hfront]
    obtain ⟨fuel, rfl⟩ := Nat.exists_eq_add_of_lt (Nat.lt_of_lt_of_le (by omega : 0 < k + 1 + t.length) hfuel)
    rw [Nat.zero_add, ih hrest (by omega) (by omega), Nat.add_assoc i]

theorem memfindResult_of_firstAt {r : ℕ} (hr : FirstAt s mem start r) : memfindResult s mem start = r := by
  obtain ⟨hle, hoccurs, hbefore⟩ := hr
  have hfind : (List.range (s.length + 1)).find? (fun i ↦ start ≤ i ∧ OccursAt s mem i) = some r := by
    rw [List.find?_range_eq_some]
    refine ⟨decide_eq_true ⟨hle, hoccurs⟩, List.mem_range.2 (Nat.lt_succ_of_le hoccurs.1), fun j hj ↦ ?_⟩
    rw [Bool.not_eq_true', decide_eq_false_iff_not]
    exact fun h ↦ hbefore j h.1 hj h.2
  rw [memfindResult, hfind, Option.getD_some]

theorem memfindResult_of_none (hnone : ∀ i, start ≤ i → ¬ OccursAt s mem i) : memfindResult s mem start = 0xffff := by
  have hfind : (List.range (s.length + 1)).find? (fun i ↦ start ≤ i ∧ OccursAt s mem i) = none := by
    refine List.find?_eq_none.2 fun i _ h ↦ ?_
    exact hnone i (of_decide_eq_true h).1 (of_decide_eq_true h).2
  rw [memfindResult, hfind, Option.getD_none]

/-- There is a first index, or there is none. -/
theorem exists_firstAt (s mem : List (BitVec 8)) (start : ℕ) :
    (∃ r, FirstAt s mem start r) ∨ ∀ i, start ≤ i → ¬ OccursAt s mem i := by
  by_cases h : ∃ i, start ≤ i ∧ OccursAt s mem i
  · classical
    refine Or.inl ⟨Nat.find h, (Nat.find_spec h).1, (Nat.find_spec h).2, fun j hj hlt hoccurs ↦ ?_⟩
    exact Nat.find_min h hlt ⟨hj, hoccurs⟩
  · exact Or.inr fun i hi hoccurs ↦ h ⟨i, hi, hoccurs⟩

theorem OccursAt.add_length_le (h : OccursAt s mem i) : i + mem.length ≤ s.length := by
  have hle := h.2.length_le
  have hi := h.1
  rw [List.length_drop] at hle
  omega

/-- **`pbuf_memfind` of a pattern that is not empty** finds the first index if and only if failed attempts lead to
it. -/
theorem pbufMemfind_eq_iff_of_pos (ht : Totals ps) (hlen : (pbufBytes ps).length ≤ 0xfffe) (hpos : 0 < mem.length) :
    pbufMemfind ps mem start = some (memfindResult (pbufBytes ps) mem start) ↔
      ∀ r, FirstAt (pbufBytes ps) mem start r → Attempts mem (((pbufBytes ps).drop start).take (r - start)) := by
  rw [pbufMemfind, ht.totLen_eq]
  by_cases hroom : mem.length + start ≤ (pbufBytes ps).length
  · have hmax : ((pbufBytes ps).length + 2 ^ 16 - mem.length) % 2 ^ 16 = (pbufBytes ps).length - mem.length := by
      omega
    rw [if_pos hroom, hmax]
    obtain ⟨r, hr, hfound⟩ := @memfindLoop_sound ps mem start ((pbufBytes ps).length + 1) (by omega) hpos (by omega)
      (by omega)
    rw [hr]
    rcases exists_firstAt (pbufBytes ps) mem start with ⟨r', hr'⟩ | hnone
    · rw [memfindResult_of_firstAt hr', Option.some.injEq]
      have hfirst : ∀ r, FirstAt (pbufBytes ps) mem start r → r = r' := fun r h ↦ Nat.le_antisymm
        (Nat.le_of_not_lt fun hlt ↦ h.2.2 r' hr'.1 hlt hr'.2.1) (Nat.le_of_not_lt fun hlt ↦ hr'.2.2 r h.1 hlt h.2.1)
      have hend := hr'.2.1.1
      constructor
      · rintro rfl r hfirst'
        rw [hfirst r hfirst']
        exact (hfound (by omega)).2.2
      · intro hattempts
        have hdrop : (pbufBytes ps).drop start = ((pbufBytes ps).drop start).take (r' - start) ++
            (pbufBytes ps).drop r' := by
          have h := List.take_append_drop (r' - start) ((pbufBytes ps).drop start)
          rwa [List.drop_drop, Nat.add_sub_cancel' hr'.1, eq_comm] at h
        have hlength : (((pbufBytes ps).drop start).take (r' - start)).length = r' - start := by
          rw [List.length_take, List.length_drop]
          omega
        have hcomplete := @memfindLoop_complete ps mem start ((pbufBytes ps).length + 1) _ _ (by omega) hpos
          (hattempts r' hr') hdrop hr'.2.1.2 (by omega)
        rw [hr, hlength, Nat.add_sub_cancel' hr'.1] at hcomplete
        exact Option.some.inj hcomplete
    · rw [memfindResult_of_none hnone, Option.some.injEq]
      refine ⟨fun _ r h ↦ absurd h.2.1 (hnone r h.1), fun _ ↦ ?_⟩
      by_contra hne
      obtain ⟨hle, hoccurs, -⟩ := hfound hne
      exact hnone r hle hoccurs
  · rw [if_neg hroom]
    have hnone : ∀ i, start ≤ i → ¬ OccursAt (pbufBytes ps) mem i := fun i hi h ↦ by
      have := h.add_length_le
      omega
    rw [memfindResult_of_none hnone]
    exact ⟨fun _ r h ↦ absurd h.2.1 (hnone r h.1), fun _ ↦ rfl⟩

/-- **`pbuf_memfind` of the empty pattern** finds it everywhere but at the end. -/
theorem pbufMemfind_nil_eq_iff (ht : Totals ps) (hlen : (pbufBytes ps).length ≤ 0xfffe) :
    pbufMemfind ps [] start = some (memfindResult (pbufBytes ps) [] start) ↔ start ≠ (pbufBytes ps).length := by
  have hmatch : ∀ {i}, i < (pbufBytes ps).length → pbufMemcmp ps i [] = 0 := fun {i} hi ↦ by
    rw [pbufMemcmp_eq_of_fits (by omega) (Nat.le_of_lt hi) hi]
    exact (memcmpResult_eq_zero_iff (Nat.le_of_lt hi)).2 List.nil_prefix
  have hmod : ((pbufBytes ps).length + 2 ^ 16) % 2 ^ 16 = (pbufBytes ps).length := by omega
  rw [pbufMemfind, ht.totLen_eq, List.length_nil, Nat.zero_add, Nat.sub_zero, hmod]
  rcases Nat.lt_trichotomy start (pbufBytes ps).length with hlt | heq | hgt
  · have hfirst : FirstAt (pbufBytes ps) [] start start :=
      ⟨le_rfl, ⟨Nat.le_of_lt hlt, List.nil_prefix⟩, fun j hj hlt' ↦ absurd hj (Nat.not_le_of_lt hlt')⟩
    rw [if_pos (Nat.le_of_lt hlt), memfindLoop, if_pos (Nat.le_of_lt hlt), memfindResult_of_firstAt hfirst]
    simp only [hmatch hlt, if_true, ne_eq, Nat.ne_of_lt hlt, not_false_eq_true]
  · -- the comparison at the end fails, and the index goes back
    subst heq
    have hfirst : FirstAt (pbufBytes ps) [] (pbufBytes ps).length (pbufBytes ps).length :=
      ⟨le_rfl, ⟨le_rfl, List.nil_prefix⟩, fun j hj hlt' ↦ absurd hj (Nat.not_le_of_lt hlt')⟩
    rw [memfindResult_of_firstAt hfirst, if_pos le_rfl, memfindLoop, if_pos le_rfl]
    simp only [pbufMemcmp_of_le le_rfl, ne_eq, not_true_eq_false, iff_false]
    rw [if_neg (by decide), memfindLoop]
    rcases Nat.eq_zero_or_pos (pbufBytes ps).length with hzero | hpos
    · rw [hzero, if_neg (by decide)]
      decide
    · have hback : ((pbufBytes ps).length + 0xffff) % 2 ^ 16 = (pbufBytes ps).length - 1 := by omega
      rw [hback, if_pos (Nat.sub_le _ _)]
      simp only [hmatch (Nat.sub_lt hpos Nat.one_pos), if_true, Option.some.injEq]
      omega
  · have hnone : ∀ i, start ≤ i → ¬ OccursAt (pbufBytes ps) [] i := fun i hi h ↦ by
      have := h.1
      omega
    rw [if_neg (by omega), memfindResult_of_none hnone]
    exact ⟨fun _ ↦ Nat.ne_of_gt hgt, fun _ ↦ rfl⟩

/-- **When the searches find the first occurrence.** The bytes from the start to it have to be failed attempts, so
that no attempt goes on into it; and the empty pattern is not found at the end, and by `pbuf_strstr` not at all. -/
theorem pbufMemfind_eq_iff (ht : Totals ps) (hlen : (pbufBytes ps).length ≤ 0xfffe) (mem : List (BitVec 8)) :
    (∀ start, pbufMemfind ps mem start = some (memfindResult (pbufBytes ps) mem start) ↔
      (mem = [] → start ≠ (pbufBytes ps).length) ∧
        ∀ r, FirstAt (pbufBytes ps) mem start r → Attempts mem (((pbufBytes ps).drop start).take (r - start))) ∧
    (pbufStrstr ps (some mem) = some (memfindResult (pbufBytes ps) mem 0) ↔
      mem ≠ [] ∧ ∀ r, FirstAt (pbufBytes ps) mem 0 r → Attempts mem ((pbufBytes ps).take r)) := by
  have hfind : ∀ start, pbufMemfind ps mem start = some (memfindResult (pbufBytes ps) mem start) ↔
      (mem = [] → start ≠ (pbufBytes ps).length) ∧
        ∀ r, FirstAt (pbufBytes ps) mem start r →
          Attempts mem (((pbufBytes ps).drop start).take (r - start)) := by
    intro start
    rcases eq_or_ne mem [] with rfl | hne
    · rw [pbufMemfind_nil_eq_iff ht hlen]
      refine ⟨fun h ↦ ⟨fun _ ↦ h, fun r hr ↦ ?_⟩, fun h ↦ h.1 rfl⟩
      -- the empty pattern is at the start itself
      have hstart : r = start := Nat.le_antisymm (Nat.le_of_not_lt fun hlt ↦ hr.2.2 start le_rfl hlt
        ⟨Nat.le_trans (Nat.le_of_lt hlt) hr.2.1.1, List.nil_prefix⟩) hr.1
      rw [hstart, Nat.sub_self, List.take_zero]
      exact Attempts.nil
    · rw [pbufMemfind_eq_iff_of_pos ht hlen (List.length_pos_iff.2 hne)]
      exact ⟨fun h ↦ ⟨fun h' ↦ absurd h' hne, h⟩, fun h ↦ h.2⟩
  refine ⟨hfind, ?_⟩
  have hstr := hfind 0
  simp only [List.drop_zero, Nat.sub_zero] at hstr
  rw [pbufStrstr, ht.totLen_eq]
  rcases eq_or_ne mem [] with rfl | hne
  · have hfirst : FirstAt (pbufBytes ps) [] 0 0 :=
      ⟨le_rfl, ⟨Nat.zero_le _, List.nil_prefix⟩, fun j _ hlt ↦ absurd hlt (Nat.not_lt_zero _)⟩
    simp [memfindResult_of_firstAt hfirst]
  · have hguard : ¬ (mem = [] ∨ (pbufBytes ps).length = 0xffff) := by
      rintro (h | h)
      · exact hne h
      · omega
    rw [if_neg hguard, and_iff_right hne]
    by_cases hlong : 0xffff ≤ mem.length
    · have hnone : ∀ i, 0 ≤ i → ¬ OccursAt (pbufBytes ps) mem i := fun i _ h ↦ by
        have := h.add_length_le
        omega
      rw [if_pos hlong, memfindResult_of_none hnone]
      exact ⟨fun _ r h ↦ absurd h.2.1 (hnone r h.1), fun _ ↦ rfl⟩
    · rw [if_neg hlong, hstr]
      exact ⟨fun h ↦ h.2, fun h ↦ ⟨fun h' ↦ absurd h' hne, h⟩⟩

/-- Three bytes in two pbufs: the pattern is behind one failed attempt. -/
theorem pbufMemfind_eq_iff_three :
    pbufMemfind [⟨[1, 2], 3⟩, ⟨[3], 1⟩] [2, 3] 0 = some 1 ∧
      pbufMemfind [⟨[1, 2], 3⟩, ⟨[3], 1⟩] [2, 3] 0 =
        some (memfindResult (pbufBytes [⟨[1, 2], 3⟩, ⟨[3], 1⟩]) [2, 3] 0) := by
  refine ⟨by decide, ((pbufMemfind_eq_iff (by decide) (by decide) _).1 0).2 ⟨fun h ↦ (nomatch h), fun r hr ↦ ?_⟩⟩
  have hr' : r = 1 := by
    have hle := hr.2.1.add_length_le
    have hend : r + 2 ≤ 3 := hle
    rcases Nat.eq_zero_or_pos r with rfl | hpos
    · exact absurd hr.2.1 (by decide)
    · omega
  subst hr'
  exact @Attempts.cons _ 0 1 [] (by decide) (by decide) Attempts.nil

/-- **An attempt goes on into the occurrence**: `ab` is not found in `aab`. -/
theorem pbufMemfind_misses :
    Totals [⟨[97, 97, 98], 3⟩] ∧ memfindResult (pbufBytes [⟨[97, 97, 98], 3⟩]) [97, 98] 0 = 1 ∧
      pbufMemfind [⟨[97, 97, 98], 3⟩] [97, 98] 0 = some 0xffff ∧
      pbufStrstr [⟨[97, 97, 98], 3⟩] (some [97, 98]) = some 0xffff := by
  decide

end Lwip.Core
