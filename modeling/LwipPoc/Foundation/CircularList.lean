import Mathlib.Data.List.Chain
import Mathlib.Data.List.Nodup

/-!
# Circular lists

Cells are told apart by their addresses, and `next` is the link of each. The list is known by its **last** cell, which
links to the first: `CircularLinks next last l` says that `l` are its cells in order. The cell at the end can become
the one in front without any link being set (`CircularLinks.rotate`); any other cell goes there by three links
(`CircularLinks.moveToFront`).
-/

variable {ι : Type*} {next next' : ι → ι} {last a c p : ι} {l xs ys : List ι}

/-- The cells of a circular list, from the first one to the last. -/
structure CircularLinks (next : ι → ι) (last : ι) (l : List ι) : Prop where
  nodup : l.Nodup
  getLast : l.getLast? = some last
  chain : (last :: l).IsChain fun a b ↦ next a = b

namespace CircularLinks

/-- The last cell links to the first one. -/
theorem next_last (h : CircularLinks next last (c :: l)) : next last = c := (List.isChain_cons_cons.1 h.chain).1

/-- A cell links to the one behind it. -/
theorem next_eq (h : CircularLinks next last (xs ++ p :: c :: ys)) : next p = c :=
  (List.isChain_cons_append_cons_cons.1 h.chain).2.1

/-- The last cell is at the end. -/
theorem eq_nil (h : CircularLinks next last (xs ++ last :: ys)) : ys = [] := by
  rcases List.eq_nil_or_concat' ys with rfl | ⟨zs, z, rfl⟩
  · rfl
  · have hlast := h.getLast
    rw [← List.cons_append, ← List.append_assoc, List.getLast?_concat, Option.some.injEq] at hlast
    subst hlast
    have hnodup := (List.nodup_append.1 h.nodup).2.1
    rw [List.nodup_cons] at hnodup
    exact absurd (List.mem_append_right _ (List.mem_singleton_self z)) hnodup.1

/-- **The last cell comes to the front** where the one before it becomes the last. -/
theorem rotate (h : CircularLinks next last (xs ++ [p, last])) : CircularLinks next p (last :: (xs ++ [p])) := by
  have hperm : (xs ++ [p, last]).Perm (last :: (xs ++ [p])) := by
    rw [List.append_cons]
    exact List.perm_append_singleton _ _
  obtain ⟨hchain, hp, -⟩ := List.isChain_cons_append_cons_cons.1 h.chain
  exact ⟨hperm.nodup_iff.1 h.nodup, by rw [← List.cons_append, List.getLast?_append]; rfl,
    List.isChain_cons_cons.2 ⟨hp, hchain⟩⟩

/-- **Another cell comes to the front**: it is taken out behind `p`, and put in behind the last one. -/
theorem moveToFront (h : CircularLinks next last (xs ++ p :: c :: ys)) (hc : c ≠ last) (hp : next' p = next c)
    (hc' : next' c = next last) (hlast : next' last = c)
    (hother : ∀ a, a ≠ p → a ≠ c → a ≠ last → next' a = next a) :
    CircularLinks next' last (c :: (xs ++ p :: ys)) := by
  have hperm : (xs ++ p :: c :: ys).Perm (c :: (xs ++ p :: ys)) := by
    rw [← List.singleton_append, ← List.append_assoc]
    exact List.perm_middle.trans (by simp)
  have hnodup := hperm.nodup_iff.1 h.nodup
  obtain ⟨hfront, hpc, hback⟩ := List.isChain_cons_append_cons_cons.1 h.chain
  obtain ⟨z, zs, rfl⟩ : ∃ z zs, ys = z :: zs := by
    cases ys with
    | nil =>
      have hlast' := h.getLast
      simp at hlast'
      exact absurd hlast' hc
    | cons z zs => exact ⟨z, zs, rfl⟩
  obtain ⟨hcz, hzs⟩ := List.isChain_cons_cons.1 hback
  obtain ⟨hhead, hxs⟩ := List.isChain_cons.1 hfront
  simp only [List.nodup_cons, List.nodup_append, List.mem_append, List.mem_cons] at hnodup
  -- the cell that the last one linked to
  obtain ⟨y, hy⟩ : ∃ y, y ∈ (xs ++ [p]).head? := by
    cases xs with
    | nil => exact ⟨p, rfl⟩
    | cons x xs => exact ⟨x, rfl⟩
  have hymem : y ∈ xs ++ [p] := List.mem_of_mem_head? hy
  have hnext_last : next last = y := hhead y hy
  have hback_last : (z :: zs).getLast? = some last := by simpa using h.getLast
  have hlast_mem : last = z ∨ last ∈ zs := List.mem_cons.1 (List.mem_of_getLast? hback_last)
  have hgetLast : (c :: (xs ++ p :: z :: zs)).getLast? = some last := by
    rw [← List.cons_append, List.append_cons, List.getLast?_append, hback_last]
    rfl
  refine ⟨hperm.nodup_iff.1 h.nodup, hgetLast, List.isChain_cons_cons.2 ⟨hlast, ?_⟩⟩
  refine List.isChain_cons_append_cons_cons.2 ⟨List.isChain_cons.2 ⟨fun b hb ↦ hc'.trans (hhead b hb), ?_⟩,
    hp.trans hcz, ?_⟩
  · refine hxs.imp_of_mem_imp fun a b ha hb hab ↦ ?_
    rw [hother a, hab] <;> rintro rfl
    · -- `p` linked to the cell that is gone
      simp only [List.mem_append, List.mem_singleton] at hb
      have hbc : c = b := hpc.symm.trans hab
      subst hbc
      tauto
    · simp only [List.mem_append, List.mem_singleton] at ha
      tauto
    · simp only [List.mem_append, List.mem_singleton] at ha
      grind
  · refine hzs.imp_of_mem_imp fun a b ha hb hab ↦ ?_
    rw [hother a, hab] <;> rintro rfl
    · grind
    · grind
    · -- the last one linked to the first
      have hby : b = y := hab.symm.trans hnext_last
      subst hby
      simp only [List.mem_append, List.mem_singleton] at hymem
      grind

end CircularLinks
