import Mathlib.Data.List.Nodup

/-!
# Doubly linked lists

Cells are told apart by their addresses, and their links are two functions `next` and `prev`. `DLinks p h l` says
that from `h` on the cells are those of `l`, with `p` in front of them and nothing behind. A new cell goes to the
front (`DLinks.push`), and any cell can be taken out (`DLinks.unlink`); each has its hypotheses cell by cell, as code
sets single links.

`Behind l a b` is what a walker at `a` still has before it: `b` comes behind `a`, or `a` is gone. It survives both
operations.
-/

variable {ι : Type*} {next prev next' prev' : ι → Option ι} {p h : Option ι} {l xs ys : List ι} {a b z : ι}

/-- From `h` on the cells are those of the list, and `p` is in front of them. -/
def DLinks (next prev : ι → Option ι) : Option ι → Option ι → List ι → Prop
  | _, h, [] => h = none
  | p, h, a :: l => h = some a ∧ prev a = p ∧ DLinks next prev (some a) (next a) l

namespace DLinks

theorem head_eq (hl : DLinks next prev p h l) : h = l.head? := by
  cases l with
  | nil => exact hl
  | cons a l => exact hl.1

/-- Only the links of the cells matter. -/
theorem congr (hl : DLinks next prev p h l) (hnext : ∀ a ∈ l, next' a = next a) (hprev : ∀ a ∈ l, prev' a = prev a) :
    DLinks next' prev' p h l := by
  induction l generalizing p h with
  | nil => exact hl
  | cons a l ih =>
    obtain ⟨hh, hp, hrest⟩ := hl
    refine ⟨hh, by rw [hprev a (by simp), hp], ?_⟩
    rw [hnext a (by simp)]
    exact ih hrest (fun b hb ↦ hnext b (List.mem_cons_of_mem _ hb)) fun b hb ↦ hprev b (List.mem_cons_of_mem _ hb)

/-- The front link of a list alone. -/
theorem front (hl : DLinks next prev p h l) {p' : Option ι} (hnd : l.Nodup) (hnext : ∀ a ∈ l, next' a = next a)
    (hhead : ∀ a, l.head? = some a → prev' a = p') (hprev : ∀ a ∈ l, l.head? ≠ some a → prev' a = prev a) :
    DLinks next' prev' p' h l := by
  cases l with
  | nil => exact hl
  | cons a l =>
    obtain ⟨hh, -, hrest⟩ := hl
    refine ⟨hh, hhead a rfl, ?_⟩
    rw [hnext a (by simp)]
    refine hrest.congr (fun b hb ↦ hnext b (List.mem_cons_of_mem _ hb)) fun b hb ↦ ?_
    refine hprev b (List.mem_cons_of_mem _ hb) fun heq ↦ ?_
    obtain rfl := Option.some.inj heq
    exact (List.nodup_cons.1 hnd).1 hb

/-- **A new cell at the front.** -/
theorem push (hl : DLinks next prev none h l) (hnd : l.Nodup) (hnextz : next' z = h) (hprevz : prev' z = none)
    (hnext : ∀ a ∈ l, next' a = next a) (hhead : ∀ a, h = some a → prev' a = some z)
    (hprev : ∀ a ∈ l, h ≠ some a → prev' a = prev a) : DLinks next' prev' none (some z) (z :: l) := by
  refine ⟨rfl, hprevz, ?_⟩
  rw [hnextz]
  have heq := hl.head_eq
  exact hl.front hnd hnext (fun a ha ↦ hhead a (heq.trans ha)) fun a ha hne ↦ hprev a ha (heq ▸ hne)

/-- What a cell links to. -/
theorem links_eq (hl : DLinks next prev p h (xs ++ z :: ys)) :
    next z = ys.head? ∧ (prev z = if xs = [] then p else xs.getLast?) := by
  induction xs generalizing p h with
  | nil =>
    obtain ⟨-, hp, hrest⟩ := hl
    exact ⟨hrest.head_eq, hp⟩
  | cons a xs ih =>
    obtain ⟨hnext, hprev⟩ := ih hl.2.2
    refine ⟨hnext, ?_⟩
    rw [hprev, if_neg (List.cons_ne_nil _ _)]
    cases xs with
    | nil => rfl
    | cons b xs => rw [if_neg (List.cons_ne_nil _ _), List.getLast?_cons_cons]

/-- A cell with others in front of it is not the first one. -/
theorem prev_eq_none_iff (hl : DLinks next prev none h (xs ++ z :: ys)) : prev z = none ↔ xs = [] := by
  rw [hl.links_eq.2]
  cases xs with
  | nil => simp
  | cons a xs => simp

variable [DecidableEq ι]

/-- The front of a list from which a cell is taken out. -/
private theorem unlink_aux (hl : DLinks next prev p h (xs ++ z :: ys)) (hnd : (xs ++ z :: ys).Nodup)
    (hp : ∀ a, p = some a → a ∉ xs ++ z :: ys)
    (hnext : ∀ a ∈ xs ++ ys, next' a = if prev z = some a then next z else next a)
    (hprev : ∀ a ∈ xs ++ ys, prev' a = if next z = some a then prev z else prev a) :
    DLinks next' prev' p (if xs = [] then next z else h) (xs ++ ys) := by
  induction xs generalizing p h with
  | nil =>
    obtain ⟨-, hpz, hrest⟩ := hl
    have hnd' := (List.nodup_cons.1 hnd).2
    rw [if_pos rfl, List.nil_append]
    refine hrest.front hnd' (fun a ha ↦ ?_) (fun a ha ↦ ?_) fun a ha hne ↦ ?_
    · rw [hnext a ha, if_neg fun heq ↦ hp a (hpz.symm.trans heq) (List.mem_cons_of_mem _ ha)]
    · rw [hprev a (List.mem_of_mem_head? ha), if_pos (hrest.head_eq.trans ha), hpz]
    · rw [hprev a ha, if_neg (hrest.head_eq ▸ hne)]
  | cons x xs ih =>
    obtain ⟨hh, hpx, hrest⟩ := hl
    obtain ⟨hxmem, hnd'⟩ := List.nodup_cons.1 hnd
    obtain ⟨hnextz, hprevz⟩ := hrest.links_eq
    have hzx : ∀ a ∈ xs ++ ys, a ∈ xs ++ z :: ys := fun a ha ↦ by
      rcases List.mem_append.1 ha with hxs | hys
      · exact List.mem_append_left _ hxs
      · exact List.mem_append_right _ (List.mem_cons_of_mem _ hys)
    rw [if_neg (List.cons_ne_nil _ _), List.cons_append]
    refine ⟨hh, ?_, ?_⟩
    · rw [hprev x (by simp), if_neg fun heq ↦ hxmem ?_, hpx]
      refine List.mem_append_right _ (List.mem_cons_of_mem _ (List.mem_of_mem_head? ?_))
      exact hnextz.symm.trans heq
    · have hx : next' x = if xs = [] then next z else next x := by
        rw [hnext x (by simp), hprevz]
        by_cases hxs : xs = []
        · rw [if_pos hxs, if_pos hxs, if_pos rfl]
        · rw [if_neg hxs, if_neg hxs, if_neg fun heq ↦ hxmem (List.mem_append_left _ (List.mem_of_getLast? heq))]
      rw [hx]
      refine ih hrest hnd' (fun a ha hmem ↦ ?_) (fun a ha ↦ ?_) fun a ha ↦ ?_
      · obtain rfl := Option.some.inj ha
        exact hxmem hmem
      · exact hnext a (List.mem_cons_of_mem _ ha)
      · exact hprev a (List.mem_cons_of_mem _ ha)

/-- **A cell is taken out.** -/
theorem unlink (hl : DLinks next prev none h (xs ++ z :: ys)) (hnd : (xs ++ z :: ys).Nodup)
    (hnext : ∀ a ∈ xs ++ ys, next' a = if prev z = some a then next z else next a)
    (hprev : ∀ a ∈ xs ++ ys, prev' a = if next z = some a then prev z else prev a) :
    DLinks next' prev' none (if xs = [] then next z else h) (xs ++ ys) :=
  hl.unlink_aux hnd (fun _ ha ↦ nomatch ha) hnext hprev

end DLinks

/-! ### What a walker has before it -/

/-- `b` comes behind `a`, if `a` is there at all. -/
def Behind (l : List ι) (a b : ι) : Prop := ∀ xs ys, l = xs ++ a :: ys → b ∈ ys

namespace Behind

/-- At the front everything is ahead. -/
theorem of_cons (hnd : (a :: l).Nodup) (hb : b ∈ l) : Behind (a :: l) a b := by
  intro xs ys heq
  cases xs with
  | nil => exact (List.cons.inj heq).2 ▸ hb
  | cons x xs =>
    refine absurd ?_ (List.nodup_cons.1 hnd).1
    rw [(List.cons.inj heq).2]
    exact List.mem_append_right _ (by simp)

/-- The place of a cell is unique. -/
theorem of_append (hnd : (xs ++ a :: ys).Nodup) (hb : b ∈ ys) : Behind (xs ++ a :: ys) a b := by
  induction xs with
  | nil => exact of_cons hnd hb
  | cons x xs ih =>
    intro us vs heq
    cases us with
    | nil =>
      refine absurd ?_ (List.nodup_cons.1 hnd).1
      rw [(List.cons.inj heq).1]
      exact List.mem_append_right _ (by simp)
    | cons u us => exact ih (List.nodup_cons.1 hnd).2 us vs (List.cons.inj heq).2

/-- A new cell goes in front of all others. -/
theorem push (hab : Behind l a b) (hb : b ∈ l) : Behind (z :: l) a b := by
  intro xs ys heq
  cases xs with
  | nil => exact (List.cons.inj heq).2 ▸ hb
  | cons x xs => exact hab xs ys (List.cons.inj heq).2

/-- Another cell is taken out. -/
theorem unlink (hab : Behind (xs ++ z :: ys) a b) (hz : z ≠ b) : Behind (xs ++ ys) a b := by
  intro us vs heq
  rcases List.append_eq_append_iff.1 heq with ⟨ws, rfl, hys⟩ | ⟨ws, rfl, hvs⟩
  · exact hab (xs ++ z :: ws) vs (by rw [hys]; simp)
  · cases ws with
    | nil =>
      rw [List.nil_append] at hvs
      exact hab (us ++ [z]) vs (by rw [← hvs]; simp)
    | cons w ws =>
      obtain ⟨rfl, rfl⟩ := List.cons.inj hvs
      have hmem := hab us (ws ++ z :: ys) (by simp)
      rcases List.mem_append.1 hmem with hws | hzys
      · exact List.mem_append_left _ hws
      · exact List.mem_append_right _ ((List.mem_cons.1 hzys).resolve_left (Ne.symm hz))

end Behind
