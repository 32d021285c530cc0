import Mathlib.Data.List.Basic

/-!
# Cutting a string

A string is sent in parts: as long as more than `big` of it is left, a part of `full` elements, and then the rest.
`Cuts` says that a list of parts carries a string in this way, where `P i last s b` is what it means for `b` to
carry the string `s` as the part with the number `i`. A loop that sends part by part builds such a list from its
end, one part for each round.

Every part is what the definition says, at its place (`Cuts.split`), there are as many of them as the length says
(`Cuts.length_eq`), and if the parts hold what they carry, so do they together (`Cuts.flatMap_eq`).
-/

variable {α β : Type*}

/-- **The parts carry the string**, from the number `i` on. -/
inductive Cuts (big full : ℕ) (P : ℕ → Bool → List α → β → Prop) : ℕ → List α → List β → Prop
  | nil (i : ℕ) : Cuts big full P i [] []
  | last {i : ℕ} {s : List α} {b : β} (hne : s ≠ []) (hle : s.length ≤ big) (hb : P i true s b) :
    Cuts big full P i s [b]
  | more {i : ℕ} {s : List α} {b : β} {bs : List β} (hlt : big < s.length) (hb : P i false (s.take full) b)
    (hbs : Cuts big full P (i + 1) (s.drop full) bs) : Cuts big full P i s (b :: bs)

/-- How many parts there are in front of the last one. -/
def fullParts (big full n : ℕ) : ℕ := (n - big + (full - 1)) / full

namespace Cuts

variable {big full i : ℕ} {P : ℕ → Bool → List α → β → Prop} {s : List α} {b : β} {bs pre post : List β}

theorem ne_nil (h : Cuts big full P i s bs) (hs : s ≠ []) : bs ≠ [] := by
  rcases h with _ | _ | _
  · exact absurd rfl hs
  · exact List.cons_ne_nil _ _
  · exact List.cons_ne_nil _ _

theorem eq_nil (h : Cuts big full P i [] bs) : bs = [] := by
  rcases h with _ | ⟨hne, -, -⟩ | ⟨hlt, -, -⟩
  · rfl
  · exact absurd rfl hne
  · exact absurd hlt (Nat.not_lt_zero _)

theorem fullParts_of_le {n : ℕ} (hfull : 0 < full) (h : n ≤ big) : fullParts big full n = 0 := by
  rw [fullParts, Nat.sub_eq_zero_of_le h, Nat.zero_add]
  exact Nat.div_eq_of_lt (Nat.sub_lt hfull Nat.one_pos)

theorem fullParts_of_lt {n : ℕ} (hfull : 0 < full) (h : big < n) :
    fullParts big full n = fullParts big full (n - full) + 1 := by
  rw [fullParts, fullParts, ← Nat.add_div_right _ hfull]
  rcases Nat.le_total full (n - big) with hn | hn
  · congr 1
    omega
  · -- the next part is the last one
    have h1 : (n - big + (full - 1)) / full = 1 := Nat.div_eq_of_lt_le (by omega) (by omega)
    have h2 : (n - full - big + (full - 1) + full) / full = 1 := Nat.div_eq_of_lt_le (by omega) (by omega)
    rw [h1, h2]

/-- **The number of parts.** -/
theorem length_eq (h : Cuts big full P i s bs) (hfull : 0 < full) (hle : full ≤ big) (hs : s ≠ []) :
    bs.length = fullParts big full s.length + 1 := by
  induction h with
  | nil => exact absurd rfl hs
  | last _ hlast _ => rw [fullParts_of_le hfull hlast, List.length_singleton, Nat.zero_add]
  | @more i s b bs hlt hb hbs ih =>
    have hdrop : s.drop full ≠ [] := fun h ↦ by
      have := List.drop_eq_nil_iff.1 h
      omega
    rw [List.length_cons, ih hdrop, List.length_drop, fullParts_of_lt hfull hlt]

/-- The first part. -/
theorem cons_cases (h : Cuts big full P i s (b :: bs)) :
    bs = [] ∧ s ≠ [] ∧ s.length ≤ big ∧ P i true s b ∨
      big < s.length ∧ P i false (s.take full) b ∧ Cuts big full P (i + 1) (s.drop full) bs := by
  rcases h with _ | ⟨hne, hle, hb⟩ | ⟨hlt, hb, hbs⟩
  · exact .inl ⟨rfl, hne, hle, hb⟩
  · exact .inr ⟨hlt, hb, hbs⟩

/-- **A part at its place**: it carries its slice, and it is the last one if there is none behind it. -/
theorem split (h : Cuts big full P i s (pre ++ b :: post)) (hle : full ≤ big) :
    (post = [] → P (i + pre.length) true (s.drop (full * pre.length)) b) ∧
    (post ≠ [] → P (i + pre.length) false ((s.drop (full * pre.length)).take full) b ∧
      big < (s.drop (full * pre.length)).length) := by
  induction pre generalizing i s with
  | nil =>
    rw [List.length_nil, Nat.mul_zero, List.drop_zero, Nat.add_zero]
    rcases h.cons_cases with ⟨rfl, -, -, hb⟩ | ⟨hlt, hb, hbs⟩
    · exact ⟨fun _ ↦ hb, fun h ↦ absurd rfl h⟩
    · -- the rest is too long to be nothing
      have hpost : post ≠ [] := hbs.ne_nil fun h ↦ by
        have := List.drop_eq_nil_iff.1 h
        omega
      exact ⟨fun h ↦ absurd h hpost, fun _ ↦ ⟨hb, hlt⟩⟩
  | cons c pre ih =>
    rcases h.cons_cases with ⟨hnil, -⟩ | ⟨-, -, hbs⟩
    · exact absurd hnil (by simp)
    · obtain ⟨hlast, hmore⟩ := ih hbs
      rw [List.drop_drop, Nat.add_assoc, Nat.add_comm 1] at hlast hmore
      rw [List.length_cons, Nat.mul_succ, Nat.add_comm (full * pre.length)]
      exact ⟨hlast, hmore⟩

/-- The parts in front of another one are full. -/
theorem mul_length_lt (h : Cuts big full P i s (pre ++ b :: post)) :
    full * pre.length < s.length := by
  induction pre generalizing i s with
  | nil =>
    rw [List.length_nil, Nat.mul_zero]
    rcases h.cons_cases with ⟨-, hne, -⟩ | ⟨hlt, -⟩
    · exact List.length_pos_of_ne_nil hne
    · exact Nat.zero_lt_of_lt hlt
  | cons c pre ih =>
    rcases h.cons_cases with ⟨hnil, -⟩ | ⟨-, -, hbs⟩
    · exact absurd hnil (by simp)
    · have hrest := ih hbs
      rw [List.length_drop] at hrest
      rw [List.length_cons, Nat.mul_succ]
      omega

/-- Each part carries a slice that is not empty. -/
theorem split_exists (h : Cuts big full P i s (pre ++ b :: post)) (hfull : 0 < full) (hle : full ≤ big) :
    ∃ slice, slice ≠ [] ∧ P (i + pre.length) post.isEmpty slice b := by
  have hpos : 0 < (s.drop (full * pre.length)).length := by
    rw [List.length_drop]
    exact Nat.sub_pos_of_lt h.mul_length_lt
  obtain ⟨hlast, hmore⟩ := h.split hle
  rcases post with _ | ⟨c, post⟩
  · exact ⟨_, List.ne_nil_of_length_pos hpos, hlast rfl⟩
  · refine ⟨_, List.ne_nil_of_length_pos ?_, (hmore (List.cons_ne_nil _ _)).1⟩
    rw [List.length_take]
    exact Nat.lt_min.2 ⟨hfull, hpos⟩

/-- What is said of each part can be changed part by part. -/
theorem imp {Q : ℕ → Bool → List α → β → Prop} (h : Cuts big full P i s bs)
    (hPQ : ∀ b ∈ bs, ∀ i last s, P i last s b → Q i last s b) : Cuts big full Q i s bs := by
  induction h with
  | nil i => exact .nil i
  | last hne hle hb => exact .last hne hle (hPQ _ List.mem_cons_self _ _ _ hb)
  | more hlt hb _ ih =>
    exact .more hlt (hPQ _ List.mem_cons_self _ _ _ hb) (ih fun b hb' ↦ hPQ b (List.mem_cons_of_mem _ hb'))

/-- If the parts hold what they carry, so do they together. -/
theorem flatMap_eq {g : β → List α} (h : Cuts big full P i s bs) (hg : ∀ i last s b, P i last s b → g b = s) :
    bs.flatMap g = s := by
  induction h with
  | nil => rfl
  | last _ _ hb => rw [List.flatMap_cons, List.flatMap_nil, List.append_nil, hg _ _ _ _ hb]
  | more _ hb _ ih => rw [List.flatMap_cons, ih, hg _ _ _ _ hb, List.take_append_drop]

/-- And those in front of a part hold what is in front of it. -/
theorem flatMap_pre_eq {g : β → List α} (h : Cuts big full P i s (pre ++ b :: post))
    (hg : ∀ i last s b, P i last s b → g b = s) : pre.flatMap g = s.take (full * pre.length) := by
  induction pre generalizing i s with
  | nil => simp
  | cons c pre ih =>
    rcases h.cons_cases with ⟨hnil, -⟩ | ⟨-, hc, hbs⟩
    · exact absurd hnil (by simp)
    · rw [List.flatMap_cons, ih hbs, hg _ _ _ _ hc, List.length_cons, Nat.mul_succ,
        Nat.add_comm (full * pre.length), List.take_add]

end Cuts
