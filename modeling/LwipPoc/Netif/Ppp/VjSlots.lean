import LwipPoc.Foundation.CircularList
import LwipPoc.Netif.Ppp.Vj

/-!
# The slots of the sender

The list of the sender's slots stays a circular one with all of them (`VjCompress.Ring`), from `vj_compress_init` on.
So the search for the slot of a packet ends, with a slot of its connection or with the one at the end of the list
(`locate_spec`); nothing but the links is changed.
-/

namespace Lwip.Netif.Ppp.VjCompress

variable {comp comp' : VjCompress} {ip : Hdr} {i cs lcs : ℕ}

/-- The slots are a circular list, each with its number. -/
structure Ring (comp : VjCompress) : Prop where
  links : ∃ l, CircularLinks (fun i ↦ (comp.tstate i).csNext) comp.lastCs l ∧ l.Perm (List.range maxSlots)
  csId : ∀ i < maxSlots, (comp.tstate i).csId = BitVec.ofNat 8 i

/-- Two states that differ in the list of the slots alone. -/
structure SameSlots (comp comp' : VjCompress) : Prop where
  csHdr : ∀ i, (comp'.tstate i).csHdr = (comp.tstate i).csHdr
  csId : ∀ i, (comp'.tstate i).csId = (comp.tstate i).csId
  lastXmit : comp'.lastXmit = comp.lastXmit
  compressSlot : comp'.compressSlot = comp.compressSlot

theorem setNext_tstate (comp : VjCompress) (a n i : ℕ) :
    (comp.setNext a n).tstate i = if i = a then { comp.tstate a with csNext := n } else comp.tstate i :=
  Function.update_apply _ _ _ _

@[simp] theorem setNext_csNext (comp : VjCompress) (a n i : ℕ) :
    ((comp.setNext a n).tstate i).csNext = if i = a then n else (comp.tstate i).csNext := by
  rw [setNext_tstate]
  split_ifs <;> rfl

theorem SameSlots.refl (comp : VjCompress) : SameSlots comp comp := ⟨fun _ ↦ rfl, fun _ ↦ rfl, rfl, rfl⟩

theorem SameSlots.setNext (h : SameSlots comp comp') (a n : ℕ) : SameSlots comp (comp'.setNext a n) where
  csHdr i := by
    rw [setNext_tstate, ← h.csHdr]
    split_ifs with hi
    · rw [hi]
    · rfl
  csId i := by
    rw [setNext_tstate, ← h.csId]
    split_ifs with hi
    · rw [hi]
    · rfl
  lastXmit := h.lastXmit
  compressSlot := h.compressSlot

/-! ### The search -/

/-- **The search ends**, at a slot of the connection or at the end of the list. -/
theorem search_spec {fuel : ℕ} {xs ys : List ℕ}
    (h : CircularLinks (fun i ↦ (comp.tstate i).csNext) comp.lastCs (xs ++ lcs :: ys)) (hne : ys ≠ [])
    (hfuel : ys.length ≤ fuel) :
    ∃ pre p c post found, comp.search ip fuel lcs = some (p, c, found) ∧ xs ++ lcs :: ys = pre ++ p :: c :: post ∧
      (found = true → sameConnection ip (comp.tstate c) = true) ∧ (found = false → c = comp.lastCs) := by
  induction fuel generalizing xs lcs ys with
  | zero => exact absurd (List.length_eq_zero_iff.1 (Nat.le_zero.1 hfuel)) hne
  | succ fuel ih =>
    obtain ⟨c, ys, rfl⟩ := List.exists_cons_of_ne_nil hne
    have hc : (comp.tstate lcs).csNext = c := h.next_eq
    rw [search, hc]
    by_cases hsame : sameConnection ip (comp.tstate c) = true
    · exact ⟨xs, lcs, c, ys, true, if_pos hsame, rfl, fun _ ↦ hsame, by simp⟩
    by_cases hlast : c = comp.lastCs
    · exact ⟨xs, lcs, c, ys, false, by rw [if_neg hsame, if_pos hlast], rfl, by simp, fun _ ↦ hlast⟩
    rw [if_neg hsame, if_neg hlast]
    rw [List.append_cons] at h ⊢
    refine ih h (fun hnil ↦ ?_) (Nat.le_of_succ_le_succ hfuel)
    have hgetLast := h.getLast
    rw [hnil, List.getLast?_concat] at hgetLast
    exact hlast (Option.some.inj hgetLast)

/-! ### The slot comes to the front -/

theorem sameSlots_moveToFront (comp : VjCompress) (lcs cs : ℕ) : SameSlots comp (comp.moveToFront lcs cs) := by
  rw [moveToFront]
  split_ifs
  · exact ⟨fun _ ↦ rfl, fun _ ↦ rfl, rfl, rfl⟩
  · exact (((SameSlots.refl comp).setNext _ _).setNext _ _).setNext _ _

theorem SameSlots.csId_eq (h : SameSlots comp comp') (hr : Ring comp) (hi : i < maxSlots) :
    (comp'.tstate i).csId = BitVec.ofNat 8 i := (h.csId i).trans (hr.csId i hi)

theorem Ring.rotate {xs : List ℕ} {p : ℕ} (hr : Ring comp)
    (h : CircularLinks (fun i ↦ (comp.tstate i).csNext) comp.lastCs (xs ++ [p, comp.lastCs]))
    (hperm : (xs ++ [p, comp.lastCs]).Perm (List.range maxSlots)) : Ring { comp with lastCs := p } := by
  refine ⟨⟨_, h.rotate, ?_⟩, hr.csId⟩
  rw [List.append_cons] at hperm
  exact (List.perm_append_singleton _ _).symm.trans hperm

theorem Ring.moveToFront {xs ys : List ℕ} {p c : ℕ} (hr : Ring comp)
    (h : CircularLinks (fun i ↦ (comp.tstate i).csNext) comp.lastCs (xs ++ p :: c :: ys))
    (hperm : (xs ++ p :: c :: ys).Perm (List.range maxSlots)) : Ring (comp.moveToFront p c) := by
  have hsame := sameSlots_moveToFront comp p c
  by_cases hlast : c = comp.lastCs
  · subst hlast
    have hys : ys = [] := (show CircularLinks _ _ ((xs ++ [p]) ++ comp.lastCs :: ys) by simpa using h).eq_nil
    subst hys
    rw [VjCompress.moveToFront, if_pos rfl]
    exact hr.rotate h hperm
  have hpc : p ≠ c := by
    have hnodup := (List.nodup_append.1 h.nodup).2.1
    rw [List.nodup_cons] at hnodup
    exact fun heq ↦ hnodup.1 (heq ▸ List.mem_cons_self)
  have hp : p ≠ comp.lastCs := by
    rintro rfl
    exact List.cons_ne_nil _ _ h.eq_nil
  rw [VjCompress.moveToFront, if_neg hlast] at hsame ⊢
  refine ⟨⟨c :: (xs ++ p :: ys), h.moveToFront hlast ?_ ?_ ?_ fun a hap hac hal ↦ ?_, ?_⟩,
    fun i hi ↦ hsame.csId_eq hr hi⟩
  · simp [hp, hpc]
  · simp [hlast, hp.symm]
  · simp
  · simp [hap, hac, hal]
  · have hmiddle := (@List.perm_middle _ c (xs ++ [p]) ys).symm
    rw [List.append_assoc, List.append_assoc] at hmiddle
    exact hmiddle.trans hperm

/-! ### The slot of a packet -/

/-- **The slot for a packet**: one of its connection, if one was found. -/
theorem locate_spec (hr : Ring comp) (ip : Hdr) :
    ∃ comp' cs found, comp.locate ip = some (comp', cs, found) ∧ Ring comp' ∧ SameSlots comp comp' ∧ cs < maxSlots ∧
      (found = true → sameConnection ip (comp.tstate cs) = true) := by
  obtain ⟨l, hl, hperm⟩ := hr.links
  have hlength : l.length = 16 := by rw [hperm.length_eq, List.length_range, maxSlots]
  obtain ⟨c, ys, rfl⟩ := List.exists_cons_of_ne_nil (show l ≠ [] by rintro rfl; cases hlength)
  have hmem : ∀ i ∈ c :: ys, i < maxSlots := fun i hi ↦ List.mem_range.1 (hperm.mem_iff.1 hi)
  have hc : (comp.tstate comp.lastCs).csNext = c := hl.next_last
  rw [locate, hc]
  by_cases hfirst : sameConnection ip (comp.tstate c) = true
  · exact ⟨comp, c, true, if_pos hfirst, hr, .refl comp, hmem c List.mem_cons_self, fun _ ↦ hfirst⟩
  rw [if_neg hfirst]
  have hlength' : ys.length = 15 := by simpa using hlength
  obtain ⟨pre, p, cs, post, found, hsearch, hsplit, hfound, hmissed⟩ := @search_spec comp ip c maxSlots [] ys hl
    (by rintro rfl; cases hlength') (by rw [hlength']; decide)
  rw [List.nil_append] at hsplit
  rw [hsplit] at hl hperm hmem
  have hcs := hmem cs (by simp)
  rw [hsearch]
  cases found with
  | true => exact ⟨_, cs, true, rfl, hr.moveToFront hl hperm, sameSlots_moveToFront comp p cs, hcs, hfound⟩
  | false =>
    obtain rfl := hmissed rfl
    have hpost : post = [] := (show CircularLinks _ _ ((pre ++ [p]) ++ comp.lastCs :: post) by simpa using hl).eq_nil
    subst hpost
    exact ⟨_, _, false, rfl, hr.rotate hl hperm, ⟨fun _ ↦ rfl, fun _ ↦ rfl, rfl, rfl⟩, hcs, by simp⟩

theorem setHdr_tstate (comp : VjCompress) (cs i : ℕ) (hdr : Hdr) :
    (comp.setHdr cs hdr).tstate i = if i = cs then { comp.tstate cs with csHdr := hdr } else comp.tstate i :=
  Function.update_apply _ _ _ _

/-- The header of a slot is no part of the list. -/
theorem Ring.setHdr (hr : Ring comp) (cs : ℕ) (hdr : Hdr) (lastXmit : BitVec 8) :
    Ring { comp.setHdr cs hdr with lastXmit := lastXmit } := by
  have hnext : ∀ i, ((comp.setHdr cs hdr).tstate i).csNext = (comp.tstate i).csNext := by
    intro i
    rw [setHdr_tstate]
    split_ifs with hi
    · rw [hi]
    · rfl
  obtain ⟨l, hl, hperm⟩ := hr.links
  refine ⟨⟨l, ⟨hl.nodup, hl.getLast, hl.chain.imp fun a b hab ↦ (hnext a).trans hab⟩, hperm⟩, fun i hi ↦ ?_⟩
  have hid := hr.csId i hi
  show ((comp.setHdr cs hdr).tstate i).csId = _
  rw [setHdr_tstate]
  split_ifs with heq
  · exact heq ▸ hid
  · exact hid

/-- **The slots at the start.** -/
theorem ring_init (comp : VjCompress) : Ring (vjCompressInit comp) := by
  have hnext : ∀ i < maxSlots, ((vjCompressInit comp).tstate i).csNext = if i = 0 then maxSlots - 1 else i - 1 := by
    intro i hi
    show (if i < maxSlots then _ else _ : Cstate).csNext = _
    rw [if_pos hi]
  refine ⟨⟨(List.range maxSlots).reverse, ⟨List.nodup_reverse.2 List.nodup_range, rfl, ?_⟩, List.reverse_perm _⟩,
    fun i hi ↦ ?_⟩
  · have hchain : (0 :: (List.range maxSlots).reverse).IsChain fun a b ↦
        a < maxSlots ∧ (if a = 0 then maxSlots - 1 else a - 1) = b := by decide
    exact hchain.imp fun a b hab ↦ (hnext a hab.1).trans hab.2
  · show (if i < maxSlots then _ else _ : Cstate).csId = _
    rw [if_pos hi]

end Lwip.Netif.Ppp.VjCompress
