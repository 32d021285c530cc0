import Mathlib.Data.Finmap

/-!
# Singly linked lists in a heap of cells

The pointer structures of C code that keep a collection as `head → next → … → NULL`: a finite heap
of cells, addresses as numbers, `none` for the null pointer. The heap is a `Finmap`, so allocation,
`free` and every traversal are executable, and `heap.keys.card` is enough fuel for any traversal
of a null-terminated list.

* `Links h p xs q` says that following `next` from `p` visits exactly the cells `xs`, in order, and
  then stands at `q`. Null termination alone makes the addresses distinct (`Links.nodup`) and the
  visited list unique (`Links.unique`).
* A pointer to a link — `&head` or `&node->next`, the `pp` of the usual editing loops — is a `Slot`.
  `seek` is the search loop over slots, `splice` the insertion at a slot, `removeAll` the loop that
  unlinks and frees every matching cell in one pass; each has one specification in terms of the
  visited list.
-/

/-- A heap cell: the payload and the `next` link, `none` being the null pointer. -/
structure Cell (α : Type*) where
  /-- The payload. -/
  val : α
  /-- The link. -/
  next : Option ℕ
  deriving DecidableEq, Repr

/-- The allocated cells by address. -/
abbrev CellHeap (α : Type*) := Finmap fun _ : ℕ ↦ Cell α

namespace CellHeap

variable {α : Type*}

/-! ### Segments -/

/-- Following `next` from `p` visits the cells `xs` in order and ends at `q`. -/
def Links (h : CellHeap α) : Option ℕ → List (ℕ × α) → Option ℕ → Prop
  | p, [], q => p = q
  | p, (a, v) :: xs, q => p = some a ∧ ∃ r, h.lookup a = some ⟨v, r⟩ ∧ Links h r xs q

variable {h h' : CellHeap α} {p q r : Option ℕ} {xs ys : List (ℕ × α)}

@[simp] theorem links_nil : Links h p [] q ↔ p = q := Iff.rfl

theorem links_cons {a : ℕ} {v : α} :
    Links h p ((a, v) :: xs) q ↔ p = some a ∧ ∃ r, h.lookup a = some ⟨v, r⟩ ∧ Links h r xs q :=
  Iff.rfl

theorem links_append : Links h p (xs ++ ys) q ↔ ∃ r, Links h p xs r ∧ Links h r ys q := by
  induction xs generalizing p with
  | nil => simp
  | cons x xs ih =>
    obtain ⟨a, v⟩ := x
    simp only [List.cons_append, links_cons, ih]
    constructor
    · rintro ⟨hp, r, hr, s, hs, hq⟩
      exact ⟨s, ⟨hp, r, hr, hs⟩, hq⟩
    · rintro ⟨s, ⟨hp, r, hr, hs⟩, hq⟩
      exact ⟨hp, r, hr, s, hs, hq⟩

/-- **A null-terminated walk is determined by its start.** -/
theorem Links.unique (hx : Links h p xs none) (hy : Links h p ys none) : xs = ys := by
  induction xs generalizing p ys with
  | nil =>
    cases ys with
    | nil => rfl
    | cons y ys => rw [links_nil] at hx; subst hx; exact absurd hy.1 (by simp)
  | cons x xs ih =>
    obtain ⟨hp, r, hr, hx⟩ := hx
    subst hp
    cases ys with
    | nil => exact absurd hy (by simp)
    | cons y ys =>
      obtain ⟨hp, r', hr', hy⟩ := hy
      have ha : y.1 = x.1 := (Option.some.inj hp).symm
      rw [ha, hr, Option.some.injEq, Cell.mk.injEq] at hr'
      rw [ih hx (hr'.2 ▸ hy)]
      exact congrArg (· :: ys) (Prod.ext ha.symm hr'.1)

/-- Every visited cell is allocated, with the payload the walk reports. -/
theorem Links.lookup (hx : Links h p xs q) {a : ℕ} {v : α} (ha : (a, v) ∈ xs) :
    ∃ r, h.lookup a = some ⟨v, r⟩ := by
  induction xs generalizing p with
  | nil => exact absurd ha List.not_mem_nil
  | cons x xs ih =>
    obtain ⟨-, r, hr, hx⟩ := hx
    rcases List.mem_cons.1 ha with rfl | ha
    · exact ⟨r, hr⟩
    · exact ih hx ha

theorem Links.mem_heap (hx : Links h p xs q) {a : ℕ} (ha : a ∈ xs.map Prod.fst) : a ∈ h := by
  obtain ⟨⟨b, v⟩, hb, rfl⟩ := List.mem_map.1 ha
  obtain ⟨r, hr⟩ := hx.lookup hb
  exact Finmap.lookup_isSome.1 (by rw [hr]; rfl)

/-- **A null-terminated walk visits no address twice**: a repeated address would start two
null-terminated walks of different lengths. -/
theorem Links.nodup (hx : Links h p xs none) : (xs.map Prod.fst).Nodup := by
  induction xs generalizing p with
  | nil => exact List.nodup_nil
  | cons x xs ih =>
    obtain ⟨a, v⟩ := x
    have hfull := hx
    obtain ⟨rfl, r, hr, hx⟩ := hx
    rw [List.map_cons, List.nodup_cons]
    refine ⟨fun ha ↦ ?_, ih hx⟩
    obtain ⟨⟨b, w⟩, hb, rfl⟩ := List.mem_map.1 ha
    obtain ⟨us, vs, rfl⟩ := List.append_of_mem hb
    obtain ⟨s, -, hs⟩ := links_append.1 hx
    have hlen := congrArg List.length (hfull.unique (hs.1 ▸ hs))
    simp only [List.length_cons, List.length_append] at hlen
    omega

/-- **The frame rule**: a walk only depends on the cells it visits. -/
theorem Links.frame (hx : Links h p xs q)
    (hframe : ∀ a ∈ xs.map Prod.fst, h'.lookup a = h.lookup a) : Links h' p xs q := by
  induction xs generalizing p with
  | nil => exact hx
  | cons x xs ih =>
    obtain ⟨hp, r, hr, hx⟩ := hx
    refine ⟨hp, r, ?_, ih hx fun a ha ↦ hframe a (List.mem_cons_of_mem _ ha)⟩
    rw [hframe _ List.mem_cons_self, hr]

/-- Writing to a cell outside a walk does not disturb it. -/
theorem Links.insert_of_notMem (hx : Links h p xs q) {a : ℕ} (ha : a ∉ xs.map Prod.fst)
    (c : Cell α) : Links (h.insert a c) p xs q :=
  hx.frame fun _ hb ↦ Finmap.lookup_insert_of_ne _ fun hab ↦ ha (hab ▸ hb)

/-- Freeing a cell outside a walk does not disturb it. -/
theorem Links.erase_of_notMem (hx : Links h p xs q) {a : ℕ} (ha : a ∉ xs.map Prod.fst) :
    Links (h.erase a) p xs q :=
  hx.frame fun _ hb ↦ Finmap.lookup_erase_ne fun hab ↦ ha (hab ▸ hb)

/-- The last cell of a walk: it links to where the walk ends. -/
theorem Links.lookup_last {l : ℕ} {v : α} (hx : Links h p (xs ++ [(l, v)]) q) :
    h.lookup l = some ⟨v, q⟩ := by
  obtain ⟨r, -, -, s, hs, rfl⟩ := links_append.1 hx
  exact hs

/-- **Appending**: the last cell of a walk is linked to a cell that the walk does not visit. -/
theorem Links.concat {l a : ℕ} {v w : α} (hx : Links h p (xs ++ [(l, v)]) none)
    (ha : h.lookup a = some ⟨w, none⟩) (hne : a ∉ (xs ++ [(l, v)]).map Prod.fst) :
    Links (h.insert l ⟨v, some a⟩) p (xs ++ [(l, v)] ++ [(a, w)]) none := by
  have hnd := hx.nodup
  rw [List.map_append, List.nodup_append] at hnd
  have hl : l ∉ xs.map Prod.fst := fun hl ↦ hnd.2.2 l hl l (by simp) rfl
  have hal : a ≠ l := by
    rintro rfl
    exact hne (by simp)
  obtain ⟨r, hxs, rfl, -, -, -⟩ := links_append.1 hx
  rw [List.append_assoc]
  refine links_append.2 ⟨some l, hxs.insert_of_notMem hl _, rfl, some a, ?_, rfl, none, ?_, rfl⟩
  · exact Finmap.lookup_insert h
  · rw [Finmap.lookup_insert_of_ne h hal, ha]

/-- A null-terminated walk is no longer than the heap. -/
theorem Links.length_le (hx : Links h p xs none) : xs.length ≤ h.keys.card := by
  have hsub : (xs.map Prod.fst).toFinset ⊆ h.keys := fun a ha ↦
    Finmap.mem_keys.2 (hx.mem_heap (List.mem_toFinset.1 ha))
  calc xs.length = (xs.map Prod.fst).toFinset.card := by
        rw [List.toFinset_card_of_nodup hx.nodup, List.length_map]
    _ ≤ h.keys.card := Finset.card_le_card hsub

/-- **Cutting**: `next` of a cell of a walk is set to null, and the walk falls into two. -/
theorem Links.cut {l : ℕ} {v : α} (hx : Links h p (xs ++ (l, v) :: ys) none) :
    ∃ r, h.lookup l = some ⟨v, r⟩ ∧ Links (h.insert l ⟨v, none⟩) p (xs ++ [(l, v)]) none ∧
      Links (h.insert l ⟨v, none⟩) r ys none := by
  have hnd := hx.nodup
  rw [List.map_append, List.map_cons, List.nodup_append, List.nodup_cons] at hnd
  obtain ⟨q, hxs, rfl, r, hl, hys⟩ := links_append.1 hx
  refine ⟨r, hl, links_append.2 ⟨some l, ?_, rfl, none, Finmap.lookup_insert h, rfl⟩, ?_⟩
  · exact hxs.insert_of_notMem (fun hmem ↦ hnd.2.2 l hmem l List.mem_cons_self rfl) _
  · exact hys.insert_of_notMem hnd.2.1.1 _

/-! ### Making a list -/

/-- New cells, linked in their order. -/
def place (h : CellHeap α) : List (ℕ × α) → CellHeap α
  | [] => h
  | (a, v) :: xs => (place h xs).insert a ⟨v, xs.head?.map Prod.fst⟩

theorem place_lookup {a : ℕ} (ha : a ∉ xs.map Prod.fst) : (h.place xs).lookup a = h.lookup a := by
  induction xs with
  | nil => rfl
  | cons x xs ih =>
    rw [List.map_cons, List.mem_cons, not_or] at ha
    exact (Finmap.lookup_insert_of_ne _ ha.1).trans (ih ha.2)

theorem links_place (hnd : (xs.map Prod.fst).Nodup) :
    Links (h.place xs) (xs.head?.map Prod.fst) xs none := by
  induction xs with
  | nil => rfl
  | cons x xs ih =>
    rw [List.map_cons, List.nodup_cons] at hnd
    exact ⟨rfl, _, Finmap.lookup_insert _, (ih hnd.2).insert_of_notMem hnd.1 _⟩

/-! ### Reading a list back -/

/-- The cells visited from `p`, reading at most `fuel` of them. -/
def walk (h : CellHeap α) : ℕ → Option ℕ → List (ℕ × α)
  | 0, _ => []
  | _ + 1, none => []
  | fuel + 1, some a =>
    match h.lookup a with
    | some c => (a, c.val) :: walk h fuel c.next
    | none => []

theorem Links.walk_eq (hx : Links h p xs none) {fuel : ℕ} (hf : xs.length ≤ fuel) :
    h.walk fuel p = xs := by
  induction xs generalizing p fuel with
  | nil =>
    rw [links_nil] at hx
    subst hx
    cases fuel <;> rfl
  | cons x xs ih =>
    obtain ⟨rfl, r, hr, hx⟩ := hx
    obtain ⟨fuel, rfl⟩ : ∃ n, fuel = n + 1 := ⟨fuel - 1, by
      rw [List.length_cons] at hf; omega⟩
    rw [walk, hr]
    exact congrArg _ (ih hx (by rw [List.length_cons] at hf; omega))

/-! ### Freeing a whole list -/

/-- The loop `while (n) { next = n->next; free(n); n = next; }`. `none` if it runs out of fuel or
reads a cell that is not allocated. -/
def freeAll : ℕ → Option ℕ → CellHeap α → Option (CellHeap α)
  | _, none, h => some h
  | 0, some _, _ => none
  | fuel + 1, some a, h => (h.lookup a).bind fun c ↦ freeAll fuel c.next (h.erase a)

/-- Freeing a null-terminated list succeeds, frees exactly its cells and touches nothing else. -/
theorem Links.freeAll_eq (hx : Links h p xs none) {fuel : ℕ} (hf : xs.length ≤ fuel) :
    ∃ h', freeAll fuel p h = some h' ∧
      ∀ a, h'.lookup a = if a ∈ xs.map Prod.fst then none else h.lookup a := by
  induction xs generalizing p fuel h with
  | nil =>
    rw [links_nil] at hx
    subst hx
    exact ⟨h, by cases fuel <;> rfl, fun a ↦ by simp⟩
  | cons x xs ih =>
    have hnd := hx.nodup
    rw [List.map_cons, List.nodup_cons] at hnd
    obtain ⟨rfl, r, hr, hx⟩ := hx
    obtain ⟨fuel, rfl⟩ : ∃ n, fuel = n + 1 := ⟨fuel - 1, by
      rw [List.length_cons] at hf; omega⟩
    obtain ⟨h', hfree, hlook⟩ := ih (hx.erase_of_notMem hnd.1)
      (by rw [List.length_cons] at hf; omega : xs.length ≤ fuel)
    refine ⟨h', by rw [freeAll, hr]; exact hfree, fun b ↦ ?_⟩
    rw [hlook b]
    by_cases hb : b = x.1
    · subst hb
      simp [hnd.1]
    · rw [Finmap.lookup_erase_ne hb, List.map_cons]
      simp only [List.mem_cons, hb, false_or]

end CellHeap

/-! ### Editing through a pointer to a link -/

/-- A list as C code holds it: the root pointer and the heap its cells live in. -/
structure RootedList (α : Type*) where
  /-- The root pointer. -/
  root : Option ℕ
  /-- The cells. -/
  heap : CellHeap α

/-- A pointer to a link: `&root`, or `&node->next`. -/
inductive Slot where
  | root
  | link (a : ℕ)
  deriving DecidableEq, Repr

namespace RootedList

open CellHeap

variable {α : Type*}

/-- `*pp`, undefined when `pp` points into a cell that is not allocated. -/
def get (l : RootedList α) : Slot → Option (Option ℕ)
  | .root => some l.root
  | .link a => (l.heap.lookup a).map Cell.next

/-- `*pp = p`, undefined when `pp` points into a cell that is not allocated. -/
def set (l : RootedList α) : Slot → Option ℕ → Option (RootedList α)
  | .root, p => some { l with root := p }
  | .link a, p =>
    (l.heap.lookup a).map fun c ↦ { l with heap := l.heap.insert a { c with next := p } }

/-- The list is null-terminated and holds exactly the cells `xs`. -/
def Holds (l : RootedList α) (xs : List (ℕ × α)) : Prop :=
  l.heap.Links l.root xs none

/-- The cells on the list, read off the heap. -/
def toList (l : RootedList α) : List (ℕ × α) :=
  l.heap.walk l.heap.keys.card l.root

theorem Holds.toList_eq {l : RootedList α} {xs : List (ℕ × α)} (h : l.Holds xs) :
    l.toList = xs :=
  h.walk_eq h.length_le

/-- The slot a traversal stands at after the cells `xs`. -/
def slotAfter (xs : List (ℕ × α)) : Slot :=
  match xs.getLast? with
  | none => .root
  | some x => .link x.1

@[simp] theorem slotAfter_nil : slotAfter ([] : List (ℕ × α)) = .root := rfl

@[simp] theorem slotAfter_concat (xs : List (ℕ × α)) (x : ℕ × α) :
    slotAfter (xs ++ [x]) = .link x.1 := by
  simp [slotAfter]

variable {l l' : RootedList α} {xs ys : List (ℕ × α)} {r : Option ℕ}

/-- Reading the slot after a segment gives the address the segment ends at. -/
theorem get_slotAfter (h : l.heap.Links l.root xs r) : l.get (slotAfter xs) = some r := by
  rcases xs.eq_nil_or_concat with rfl | ⟨xs, ⟨a, v⟩, rfl⟩
  · rw [links_nil] at h
    simp [get, h]
  · rw [List.concat_eq_append] at h ⊢
    obtain ⟨q, -, -, s, hs, hq⟩ := links_append.1 h
    rw [links_nil] at hq
    simp [get, hs, hq]

/-- **Writing the slot after a segment** redirects the segment's end and changes no other cell's
link and no payload. -/
theorem set_slotAfter (h : l.heap.Links l.root xs r) (hnd : (xs.map Prod.fst).Nodup)
    (p : Option ℕ) :
    ∃ l', l.set (slotAfter xs) p = some l' ∧ l'.heap.Links l'.root xs p ∧
      ∀ a ∉ xs.map Prod.fst, l'.heap.lookup a = l.heap.lookup a := by
  rcases xs.eq_nil_or_concat with rfl | ⟨xs, ⟨a, v⟩, rfl⟩
  · exact ⟨{ l with root := p }, rfl, rfl, fun _ _ ↦ rfl⟩
  · rw [List.concat_eq_append] at h hnd ⊢
    rw [List.map_append, List.nodup_append] at hnd
    have hax : a ∉ xs.map Prod.fst := fun ha ↦ hnd.2.2 a ha a (by simp) rfl
    obtain ⟨q, hxs, rfl, s, hs, -⟩ := links_append.1 h
    refine ⟨{ l with heap := l.heap.insert a ⟨v, p⟩ }, by simp [set, hs], ?_, ?_⟩
    · refine links_append.2 ⟨some a, hxs.insert_of_notMem hax _, rfl, p, ?_, rfl⟩
      exact Finmap.lookup_insert _
    · intro b hb
      refine Finmap.lookup_insert_of_ne _ fun hba ↦ hb ?_
      simp [hba]

/-- The search loop `while (*pp && cond(*pp)) pp = &(*pp)->next;`. -/
def seek (l : RootedList α) (cond : α → Bool) : ℕ → Slot → Option Slot
  | 0, _ => none
  | fuel + 1, pp =>
    (l.get pp).bind fun
      | none => some pp
      | some a =>
        (l.heap.lookup a).bind fun c ↦
          if cond c.val then l.seek cond fuel (.link a) else some pp

/-- The search stops at the slot after the longest prefix whose payloads satisfy the condition. -/
theorem seek_slotAfter (cond : α → Bool) (hx : l.heap.Links l.root xs r)
    (hy : l.heap.Links r ys none) {fuel : ℕ} (hf : ys.length < fuel) :
    l.seek cond fuel (slotAfter xs) =
      some (slotAfter (xs ++ ys.takeWhile fun y ↦ cond y.2)) := by
  induction ys generalizing xs r fuel with
  | nil =>
    rw [links_nil] at hy
    subst hy
    obtain ⟨fuel, rfl⟩ : ∃ n, fuel = n + 1 := ⟨fuel - 1, by omega⟩
    simp [seek, get_slotAfter hx]
  | cons y ys ih =>
    obtain ⟨a, v⟩ := y
    obtain ⟨rfl, s, hs, hy⟩ := hy
    obtain ⟨fuel, rfl⟩ : ∃ n, fuel = n + 1 := ⟨fuel - 1, by omega⟩
    rw [List.length_cons] at hf
    have hstep : l.seek cond (fuel + 1) (slotAfter xs) =
        if cond v then l.seek cond fuel (.link a) else some (slotAfter xs) := by
      simp [seek, get_slotAfter hx, hs]
    rw [hstep]
    by_cases hc : cond v
    · have hxa : l.heap.Links l.root (xs ++ [(a, v)]) s :=
        links_append.2 ⟨some a, hx, rfl, s, hs, rfl⟩
      have hrec := ih hxa hy (by omega : ys.length < fuel)
      rw [slotAfter_concat] at hrec
      simp [hc, hrec]
    · simp [hc]

/-- Insertion at a slot: `e->next = *pp; *pp = e;`. -/
def splice (l : RootedList α) (pp : Slot) (e : ℕ) : Option (RootedList α) :=
  (l.get pp).bind fun next ↦ (l.set (.link e) next).bind fun l ↦ l.set pp (some e)

/-- Splicing a cell that is not on the list puts it between the two halves. -/
theorem splice_slotAfter (h : l.Holds (xs ++ ys)) {e : ℕ} {v : α} {q : Option ℕ}
    (he : l.heap.lookup e = some ⟨v, q⟩) (hnew : e ∉ (xs ++ ys).map Prod.fst) :
    ∃ l', l.splice (slotAfter xs) e = some l' ∧ l'.Holds (xs ++ (e, v) :: ys) ∧
      ∀ a ∉ ((e, v) :: (xs ++ ys)).map Prod.fst, l'.heap.lookup a = l.heap.lookup a := by
  obtain ⟨r, hx, hy⟩ := links_append.1 h
  have hnd : (xs.map Prod.fst).Nodup ∧ ∀ a ∈ ys.map Prod.fst, a ∉ xs.map Prod.fst := by
    have := h.nodup
    rw [List.map_append, List.nodup_append] at this
    exact ⟨this.1, fun a ha hax ↦ this.2.2 a hax a ha rfl⟩
  rw [List.map_append, List.mem_append, not_or] at hnew
  -- the new cell's own link is written first, off the list
  set l₁ : RootedList α := { l with heap := l.heap.insert e ⟨v, r⟩ } with hl₁
  have hset₁ : l.set (.link e) r = some l₁ := by simp [set, he, hl₁]
  have hx₁ : l₁.heap.Links l₁.root xs r := hx.insert_of_notMem hnew.1 _
  obtain ⟨l₂, hset₂, hx₂, hframe⟩ := set_slotAfter hx₁ hnd.1 (some e)
  refine ⟨l₂, by simp [splice, get_slotAfter hx, hset₁, hset₂], ?_, ?_⟩
  · refine links_append.2 ⟨some e, hx₂, rfl, r, ?_, ?_⟩
    · rw [hframe e hnew.1]
      exact Finmap.lookup_insert _
    · refine (hy.insert_of_notMem hnew.2 ⟨v, r⟩).frame fun a ha ↦ hframe a (hnd.2 a ha)
  · intro a ha
    simp only [List.map_cons, List.map_append, List.mem_cons, List.mem_append, not_or] at ha
    rw [hframe a ha.2.1]
    exact Finmap.lookup_insert_of_ne _ ha.1

/-- The loop that unlinks and frees every matching cell:
`while (*pp) { if (match(*pp)) { d = *pp; *pp = d->next; free(d); continue; } pp = &(*pp)->next; }`.
-/
def removeAll (cond : α → Bool) : ℕ → Slot → RootedList α → Option (RootedList α)
  | 0, _, _ => none
  | fuel + 1, pp, l =>
    (l.get pp).bind fun
      | none => some l
      | some a =>
        (l.heap.lookup a).bind fun c ↦
          if cond c.val then
            (l.set pp c.next).bind fun l ↦
              removeAll cond fuel pp { l with heap := l.heap.erase a }
          else removeAll cond fuel (.link a) l

/-- The removal loop keeps exactly the cells that do not match, in their order, frees the others
and touches no cell outside the list. -/
theorem removeAll_slotAfter (cond : α → Bool) (xs : List (ℕ × α)) (h : l.Holds (xs ++ ys))
    {fuel : ℕ} (hf : ys.length < fuel) :
    ∃ l', removeAll cond fuel (slotAfter xs) l = some l' ∧
      l'.Holds (xs ++ ys.filter fun y ↦ !cond y.2) ∧
      (∀ a ∉ (xs ++ ys).map Prod.fst, l'.heap.lookup a = l.heap.lookup a) := by
  induction ys generalizing xs l fuel with
  | nil =>
    obtain ⟨fuel, rfl⟩ : ∃ n, fuel = n + 1 := ⟨fuel - 1, by omega⟩
    rw [List.append_nil] at h
    exact ⟨l, by simp [removeAll, get_slotAfter h], by simpa using h, fun _ _ ↦ rfl⟩
  | cons y ys ih =>
    obtain ⟨a, v⟩ := y
    obtain ⟨fuel, rfl⟩ : ∃ n, fuel = n + 1 := ⟨fuel - 1, by omega⟩
    rw [List.length_cons] at hf
    obtain ⟨r, hx, rfl, s, hs, hy⟩ := links_append.1 h
    have hnd := h.nodup
    rw [List.map_append, List.map_cons, List.nodup_append, List.nodup_cons] at hnd
    have hax : a ∉ xs.map Prod.fst := fun ha ↦ hnd.2.2 a ha a List.mem_cons_self rfl
    by_cases hc : cond v
    · -- the match: `*pp` skips the cell, which is then freed, and `pp` stays
      obtain ⟨l₁, hset, hx₁, hframe⟩ := set_slotAfter hx hnd.1 s
      have hyx : ∀ b ∈ ys.map Prod.fst, b ∉ xs.map Prod.fst := fun b hb hbx ↦
        hnd.2.2 b hbx b (List.mem_cons_of_mem _ hb) rfl
      have hh : RootedList.Holds ⟨l₁.root, l₁.heap.erase a⟩ (xs ++ ys) :=
        links_append.2 ⟨s, hx₁.erase_of_notMem hax,
          (hy.frame fun b hb ↦ hframe b (hyx b hb)).erase_of_notMem hnd.2.1.1⟩
      obtain ⟨l', hrun, hl', hfr⟩ := ih xs hh (by omega : ys.length < fuel)
      refine ⟨l', ?_, by simpa [hc] using hl', fun b hb ↦ ?_⟩
      · rw [removeAll, get_slotAfter hx]
        simpa [hs, hc, hset] using hrun
      · simp only [List.map_append, List.map_cons, List.mem_append, List.mem_cons, not_or] at hb
        rw [hfr b (by simp only [List.map_append, List.mem_append, not_or]; exact ⟨hb.1, hb.2.2⟩)]
        exact (Finmap.lookup_erase_ne hb.2.1).trans (hframe b hb.1)
    · -- no match: `pp` moves on to the cell's own link
      have hh : l.Holds ((xs ++ [(a, v)]) ++ ys) := by simpa using h
      obtain ⟨l', hrun, hl', hfr⟩ := ih _ hh (by omega : ys.length < fuel)
      rw [slotAfter_concat] at hrun
      refine ⟨l', ?_, by simpa [hc] using hl', fun b hb ↦ hfr b (by simpa using hb)⟩
      rw [removeAll, get_slotAfter hx]
      simpa [hs, hc] using hrun

end RootedList
