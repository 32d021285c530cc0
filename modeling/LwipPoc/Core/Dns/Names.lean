import LwipPoc.Core.Dns.Table
import Mathlib.Data.List.Infix

/-!
# Names in DNS messages

`dns_parse_name` and `dns_compare_name` walk over an encoded name without knowing where the message ends. What they do
is said here by two relations on the bytes, `NameEnds` and `Compares`; the functions return exactly what the
relations say (`dnsParseName_eq_some`, `dnsCompareName_eq_some`).

`dns_compare_name` compares the characters of the labels and passes over one character of the hostname behind each of
them, whatever it is; it ends with the encoded name. So a name with other separators, and one that is shorter, are
equal to it (`dnsCompareName_decides_iff`).

`dns_send` writes the labels of the hostname, of any length, to a pbuf with room for a hostname and one
more byte. A hostname has two bytes more when it is encoded (`dnsSendMessage_question_iff`).
-/

namespace Lwip.Dns

/-! ### What the walks do -/

/-- **The encoded name ends where the second list begins.** Of a pointer, the second byte belongs to the name. -/
inductive NameEnds : List (BitVec 8) → List (BitVec 8) → Prop
  | pointer {n : BitVec 8} {p : List (BitVec 8)} (hn : compressed n = true) : NameEnds (n :: p) p.tail
  | last {n : BitVec 8} {l p : List (BitVec 8)} (hn : compressed n = false) (hl : l.length = n.toNat) :
    NameEnds (n :: (l ++ 0 :: p)) p
  | more {n c : BitVec 8} {l p q : List (BitVec 8)} (hn : compressed n = false) (hl : l.length = n.toNat) (hc : c ≠ 0)
    (h : NameEnds (c :: p) q) : NameEnds (n :: (l ++ c :: p)) q

/-- **The result for a hostname and an encoded name.** Behind the characters of a label, one character of the
hostname is not looked at. -/
inductive Compares : List (BitVec 8) → List (BitVec 8) → ℕ → Prop
  | pointer {n : BitVec 8} {mem p : List (BitVec 8)} (hn : compressed n = true) : Compares mem (n :: p) 0
  | differs {n a b : BitVec 8} {l mem p : List (BitVec 8)} (hn : compressed n = false) (hl : l.length < n.toNat)
    (hab : a ≠ b) : Compares (l ++ a :: mem) (n :: (l ++ b :: p)) 1
  | last {n : BitVec 8} {l mem p : List (BitVec 8)} (hn : compressed n = false) (hl : l.length = n.toNat) :
    Compares (l ++ mem) (n :: (l ++ 0 :: p)) 0
  | more {n c : BitVec 8} {l mem p : List (BitVec 8)} {r : ℕ} (hn : compressed n = false) (hl : l.length = n.toNat)
    (hc : c ≠ 0) (h : Compares mem.tail (c :: p) r) : Compares (l ++ mem) (n :: (l ++ c :: p)) r

variable {n c : BitVec 8} {k fuel r : ℕ} {l p q mem mem' query response rest : List (BitVec 8)}

/-- A label that is passed over. -/
theorem drop_eq_cons (h : p.drop k = c :: q) : ∃ l, l.length = k ∧ p = l ++ c :: q := by
  have hlt : k < p.length := by
    by_contra hle
    rw [List.drop_eq_nil_of_le (Nat.le_of_not_lt hle)] at h
    cases h
  exact ⟨p.take k, List.length_take_of_le hlt.le, by rw [← h, List.take_append_drop]⟩

attribute [local simp] Dns.parseLabels compareLabel compareLabels

theorem nameEnds_of_parseLabels (h : parseLabels fuel p = some q) : NameEnds p q := by
  induction fuel generalizing p with
  | zero => cases h
  | succ fuel ih =>
    rcases p with - | ⟨n, p⟩
    · cases h
    rw [parseLabels] at h
    split_ifs at h with hn
    · exact Option.some.inj h ▸ .pointer hn
    have hn : compressed n = false := Bool.eq_false_iff.2 hn
    dsimp only at h
    obtain ⟨c, hc, h⟩ := Option.bind_eq_some_iff.1 h
    obtain ⟨p', hp'⟩ := List.head?_eq_some_iff.1 hc
    obtain ⟨l, hl, rfl⟩ := drop_eq_cons hp'
    rw [hp'] at h
    split_ifs at h with hzero
    · exact .more hn hl hzero (ih h)
    · obtain rfl : c = 0 := not_not.1 hzero
      exact Option.some.inj h ▸ .last hn hl

/-- Each label takes one byte at least, so there are not more labels than bytes. -/
theorem NameEnds.parseLabels (h : NameEnds p q) (hfuel : p.length ≤ fuel) : parseLabels fuel p = some q := by
  induction h generalizing fuel with
  | pointer hn =>
    rcases fuel with - | fuel
    · simp at hfuel
    rw [Dns.parseLabels, if_pos hn]
  | last hn hl =>
    rcases fuel with - | fuel
    · simp at hfuel
    rw [Dns.parseLabels, if_neg (by simp [hn]), ← hl, List.drop_left]
    rfl
  | @more n c l p q hn hl hc h ih =>
    rcases fuel with - | fuel
    · simp at hfuel
    rw [Dns.parseLabels, if_neg (by simp [hn]), ← hl, List.drop_left]
    refine (if_pos hc).trans (ih ?_)
    simp at hfuel ⊢
    omega

/-- **`dns_parse_name`** finds the end of a name, wherever there is one. -/
theorem dnsParseName_eq_some : dnsParseName p = some q ↔ NameEnds p q :=
  ⟨nameEnds_of_parseLabels, fun h ↦ h.parseLabels le_rfl⟩

/-- The loop over the characters of a label: they are the same in both. -/
theorem compareLabel_same (l query response : List (BitVec 8)) :
    compareLabel l.length (l ++ query) (l ++ response) = some (some (query, response)) := by
  induction l with
  | nil => rfl
  | cons a l ih =>
    rw [List.length_cons, List.cons_append, List.cons_append, compareLabel, if_neg (not_not.2 rfl)]
    exact ih

theorem compareLabel_differs {a b : BitVec 8} (hl : l.length < k) (hab : a ≠ b) :
    compareLabel k (l ++ a :: mem) (l ++ b :: p) = some none := by
  induction l generalizing k with
  | nil =>
    obtain ⟨k, rfl⟩ := Nat.exists_eq_succ_of_ne_zero (Nat.ne_of_gt hl)
    exact if_pos hab
  | cons x l ih =>
    obtain ⟨k, rfl⟩ := Nat.exists_eq_succ_of_ne_zero (Nat.ne_of_gt (Nat.zero_lt_of_lt hl))
    rw [List.cons_append, List.cons_append, compareLabel, if_neg (not_not.2 rfl)]
    exact ih (Nat.lt_of_succ_lt_succ hl)

/-- What the loop over the characters of a label has found. -/
theorem compareLabel_cases {o : Option (List (BitVec 8) × List (BitVec 8))} (h : compareLabel k query response = some o) :
    (∃ l mem p, l.length = k ∧ query = l ++ mem ∧ response = l ++ p ∧ o = some (mem, p)) ∨
      ∃ l a b mem p, l.length < k ∧ a ≠ b ∧ query = l ++ a :: mem ∧ response = l ++ b :: p ∧ o = none := by
  induction k generalizing query response with
  | zero => exact .inl ⟨[], query, response, rfl, rfl, rfl, by simpa [compareLabel] using h.symm⟩
  | succ k ih =>
    rcases query with - | ⟨x, query⟩
    · rcases response with - | ⟨y, response⟩ <;> cases h
    rcases response with - | ⟨y, response⟩
    · cases h
    rw [compareLabel] at h
    split_ifs at h with hxy
    · exact .inr ⟨[], x, y, query, response, Nat.succ_pos k, hxy, rfl, rfl, (Option.some.inj h).symm⟩
    · obtain rfl : x = y := not_not.1 hxy
      rcases ih h with ⟨l, mem, p, hl, rfl, rfl, ho⟩ | ⟨l, a, b, mem, p, hl, hab, rfl, rfl, ho⟩
      · exact .inl ⟨x :: l, mem, p, by simp [hl], rfl, rfl, ho⟩
      · exact .inr ⟨x :: l, a, b, mem, p, by simpa using hl, hab, rfl, rfl, ho⟩

theorem compares_of_compareLabels (h : compareLabels fuel query response = some r) : Compares query response r := by
  induction fuel generalizing query response with
  | zero => cases h
  | succ fuel ih =>
    rcases response with - | ⟨n, response⟩
    · cases h
    rw [compareLabels] at h
    split_ifs at h with hn
    · exact Option.some.inj h ▸ .pointer hn
    have hn : compressed n = false := Bool.eq_false_iff.2 hn
    obtain ⟨o, ho, h⟩ := Option.bind_eq_some_iff.1 h
    rcases compareLabel_cases ho with ⟨l, mem, p, hl, rfl, rfl, rfl⟩ | ⟨l, a, b, mem, p, hl, hab, rfl, rfl, rfl⟩
    · dsimp only at h
      obtain ⟨c, hc, h⟩ := Option.bind_eq_some_iff.1 h
      obtain ⟨p', rfl⟩ := List.head?_eq_some_iff.1 hc
      split_ifs at h with hzero
      · exact .more hn hl hzero (ih h)
      · obtain rfl : c = 0 := not_not.1 hzero
        exact Option.some.inj h ▸ .last hn hl
    · exact Option.some.inj h ▸ .differs hn hl hab

theorem Compares.compareLabels (h : Compares query response r) (hfuel : response.length ≤ fuel) :
    compareLabels fuel query response = some r := by
  induction h generalizing fuel with
  | pointer hn =>
    rcases fuel with - | fuel
    · simp at hfuel
    rw [Dns.compareLabels, if_pos hn]
  | differs hn hl hab =>
    rcases fuel with - | fuel
    · simp at hfuel
    rw [Dns.compareLabels, if_neg (by simp [hn]), compareLabel_differs hl hab]
    rfl
  | last hn hl =>
    rcases fuel with - | fuel
    · simp at hfuel
    rw [Dns.compareLabels, if_neg (by simp [hn]), ← hl, compareLabel_same]
    rfl
  | @more n c l mem p r hn hl hc h ih =>
    rcases fuel with - | fuel
    · simp at hfuel
    rw [Dns.compareLabels, if_neg (by simp [hn]), ← hl, compareLabel_same]
    refine (if_pos hc).trans (ih ?_)
    simp at hfuel ⊢
    omega

/-- **`dns_compare_name`** returns what the relation says. -/
theorem dnsCompareName_eq_some : dnsCompareName query response = some r ↔ Compares query response r :=
  ⟨compares_of_compareLabels, fun h ↦ h.compareLabels le_rfl⟩

/-- Past the characters of a label: they are in the hostname, and what is behind them is a zero or the next label. -/
theorem compares_zero_iff (hn : compressed n = false) (hl : l.length = n.toNat) :
    Compares mem (n :: (l ++ c :: p)) 0 ↔ l <+: mem ∧ (c = 0 ∨ Compares (mem.drop (l.length + 1)) (c :: p) 0) := by
  refine ⟨fun h ↦ ?_, ?_⟩
  · generalize hw : n :: (l ++ c :: p) = w at h
    generalize hr : (0 : ℕ) = r at h
    rcases h with hn' | ⟨hn', hl', hab⟩ | ⟨hn', hl'⟩ | ⟨hn', hl', hc, h⟩
    · obtain ⟨rfl, -⟩ := List.cons.inj hw
      exact absurd (hn.symm.trans hn') Bool.false_ne_true
    · cases hr
    · obtain ⟨rfl, htail⟩ := List.cons.inj hw
      obtain ⟨rfl, hend⟩ := List.append_inj htail (hl.trans hl'.symm)
      exact ⟨List.prefix_append _ _, .inl (List.cons.inj hend).1⟩
    · obtain ⟨rfl, htail⟩ := List.cons.inj hw
      obtain ⟨rfl, hend⟩ := List.append_inj htail (hl.trans hl'.symm)
      obtain ⟨rfl, rfl⟩ := List.cons.inj hend
      refine ⟨List.prefix_append _ _, .inr ?_⟩
      rw [← List.drop_drop, List.drop_left, List.drop_one]
      exact hr ▸ h
  · rintro ⟨⟨mem, rfl⟩, hrest⟩
    rcases Decidable.em (c = 0) with rfl | hc
    · exact .last hn hl
    · refine .more hn hl hc ?_
      have h := hrest.resolve_left hc
      rwa [← List.drop_drop, List.drop_left, List.drop_one] at h

/-! ### Names of labels -/

/-- The wire format: each label behind its length, and a zero. -/
def encodeLabels (labels : List (List (BitVec 8))) : List (BitVec 8) :=
  labels.flatMap (fun label ↦ BitVec.ofNat 8 label.length :: label) ++ [0]

/-- The labels of a name have from 1 to 63 bytes. -/
def WellFormed (labels : List (List (BitVec 8))) : Prop := ∀ l ∈ labels, 1 ≤ l.length ∧ l.length ≤ 63

instance (labels : List (List (BitVec 8))) : Decidable (WellFormed labels) := by
  unfold WellFormed
  infer_instance

/-- The name with dots between its labels. -/
def dotted (labels : List (List (BitVec 8))) : List (BitVec 8) := [0x2e].intercalate labels

/-- Each label is where it is to be in the memory of a hostname; there is one more character between any two. -/
def InPlace : List (List (BitVec 8)) → List (BitVec 8) → Prop
  | [], _ => True
  | l :: labels, mem => l <+: mem ∧ InPlace labels (mem.drop (l.length + 1))

/-- **What `dns_compare_name` takes for equal.** Of a name without labels it does not see the end, and what is behind
it is read as the next label. -/
def LooksEqual (mem : List (BitVec 8)) (labels : List (List (BitVec 8))) (rest : List (BitVec 8)) : Prop :=
  if labels = [] then rest.head? = some 0 ∨ Compares (mem.drop 1) rest 0 else InPlace labels mem

variable {labels labels' : List (List (BitVec 8))}

@[simp] theorem encodeLabels_nil : encodeLabels [] = [0] := rfl

theorem encodeLabels_cons (l : List (BitVec 8)) (labels : List (List (BitVec 8))) :
    encodeLabels (l :: labels) = BitVec.ofNat 8 l.length :: (l ++ encodeLabels labels) := by
  simp [encodeLabels]

theorem dotted_cons (l : List (BitVec 8)) (h : labels ≠ []) : dotted (l :: labels) = l ++ 0x2e :: dotted labels := by
  rw [dotted, List.intercalate_cons_of_ne_nil h, List.append_assoc, List.singleton_append, dotted]

@[simp] theorem dotted_singleton (l : List (BitVec 8)) : dotted [l] = l := List.intercalate_singleton

/-- The first byte of a label that is not too long is its length. -/
theorem length_byte (h : l.length ≤ 63) : compressed (BitVec.ofNat 8 l.length) = false ∧
    l.length = (BitVec.ofNat 8 l.length).toNat := by
  refine ⟨?_, ?_⟩
  · have hall : ∀ k ≤ 63, compressed (BitVec.ofNat 8 k) = false := by decide
    exact hall l.length h
  · rw [BitVec.toNat_ofNat, Nat.mod_eq_of_lt (by omega)]

/-- Behind a label there is a zero, or the length of the next one. -/
theorem encodeLabels_head (h : WellFormed labels) :
    ∃ c p, encodeLabels labels = c :: p ∧ (c = 0 ↔ labels = []) ∧ (labels = [] → p = []) := by
  rcases labels with - | ⟨l, labels⟩
  · exact ⟨0, [], rfl, by simp, fun _ ↦ rfl⟩
  · refine ⟨_, _, encodeLabels_cons l labels, iff_of_false (fun hzero ↦ ?_) (List.cons_ne_nil l labels),
      fun h ↦ absurd h (List.cons_ne_nil l labels)⟩
    obtain ⟨hpos, hle⟩ := h l List.mem_cons_self
    have hlen := (length_byte hle).2
    rw [hzero] at hlen
    exact absurd hlen (Nat.ne_of_gt hpos)

/-- **An encoded name ends behind its zero.** -/
theorem nameEnds_encodeLabels (h : WellFormed labels) (hne : labels ≠ []) (rest : List (BitVec 8)) :
    NameEnds (encodeLabels labels ++ rest) rest := by
  induction labels with
  | nil => exact absurd rfl hne
  | cons l labels ih =>
    obtain ⟨hl, htail⟩ := List.forall_mem_cons.1 h
    obtain ⟨hn, hlen⟩ := length_byte hl.2
    obtain ⟨c, p, hcp, hzero, hp⟩ := encodeLabels_head htail
    rw [encodeLabels_cons, List.cons_append, List.append_assoc]
    rcases Decidable.em (labels = []) with rfl | hmore
    · exact .last hn hlen
    · have hrest := ih htail hmore
      rw [hcp, List.cons_append] at hrest ⊢
      exact .more hn hlen (fun hc ↦ hmore (hzero.1 hc)) hrest

/-- The characters of the labels are all that counts. -/
theorem compares_encodeLabels_iff (h : WellFormed labels) (hne : labels ≠ []) :
    Compares mem (encodeLabels labels ++ rest) 0 ↔ InPlace labels mem := by
  induction labels generalizing mem with
  | nil => exact absurd rfl hne
  | cons l labels ih =>
    obtain ⟨hl, htail⟩ := List.forall_mem_cons.1 h
    obtain ⟨hn, hlen⟩ := length_byte hl.2
    obtain ⟨c, p, hcp, hzero, -⟩ := encodeLabels_head htail
    rw [encodeLabels_cons, List.cons_append, List.append_assoc, hcp, List.cons_append, compares_zero_iff hn hlen, InPlace,
      hzero]
    refine and_congr_right fun _ ↦ ?_
    rcases Decidable.em (labels = []) with rfl | hmore
    · simp [InPlace]
    · rw [or_iff_right hmore, ← List.cons_append, ← hcp]
      exact ih htail hmore

/-- The labels of a hostname are in their places. -/
theorem inPlace_dotted (labels : List (List (BitVec 8))) (behind : List (BitVec 8)) :
    InPlace labels (dotted labels ++ behind) := by
  induction labels generalizing behind with
  | nil => trivial
  | cons l labels ih =>
    rcases Decidable.em (labels = []) with rfl | hmore
    · rw [dotted_singleton]
      exact ⟨List.prefix_append l behind, trivial⟩
    · rw [dotted_cons l hmore, List.append_assoc]
      refine ⟨List.prefix_append _ _, ?_⟩
      rw [← List.drop_drop, List.drop_left, List.cons_append, List.drop_succ_cons, List.drop_zero]
      exact ih behind

theorem dnsCompareName_zero_iff (h : WellFormed labels) :
    dnsCompareName mem (encodeLabels labels ++ rest) = some 0 ↔ LooksEqual mem labels rest := by
  rw [dnsCompareName_eq_some, LooksEqual]
  split_ifs with hroot
  · subst hroot
    rcases rest with - | ⟨c, p⟩
    · refine iff_of_false (fun h ↦ ?_) fun h ↦ ?_
      · have hnone := dnsCompareName_eq_some.2 h
        cases hnone
      · rcases h with h | h
        · cases h
        · have hnone := dnsCompareName_eq_some.2 h
          cases hnone
    · have hzero : Compares mem (0 :: ([] ++ c :: p)) 0 ↔ _ := compares_zero_iff (by decide) rfl
      simpa using hzero
  · exact compares_encodeLabels_iff h hroot

/-- **`dns_compare_name` decides equality** unless the characters of all labels are in their places but the names are
not equal. The memory behind the hostname has any contents, and so has the message behind the name. -/
theorem dnsCompareName_decides_iff {hostname : List (BitVec 8)} (hhost : hostname ≠ []) (h : WellFormed labels)
    (behind rest : List (BitVec 8)) :
    (dnsCompareName (hostname ++ 0 :: behind) (encodeLabels labels ++ rest) = some 0 ↔ dotted labels = hostname) ↔
      dotted labels = hostname ∨ ¬LooksEqual (hostname ++ 0 :: behind) labels rest := by
  rw [dnsCompareName_zero_iff h]
  have hequal : dotted labels = hostname → LooksEqual (hostname ++ 0 :: behind) labels rest := by
    rintro rfl
    rw [LooksEqual, if_neg]
    · exact inPlace_dotted labels _
    · rintro rfl
      exact hhost rfl
  tauto

/-- The name `"ab.c"` in a response is the hostname. -/
theorem dnsCompareName_decides_dotted :
    dnsCompareName ([0x61, 0x62, 0x2e, 0x63] ++ 0 :: [0x78]) (encodeLabels [[0x61, 0x62], [0x63]] ++ [0, 1, 0, 1]) =
      some 0 ↔ dotted [[0x61, 0x62], [0x63]] = [0x61, 0x62, 0x2e, 0x63] :=
  (dnsCompareName_decides_iff (by decide) (by decide) [0x78] [0, 1, 0, 1]).2 (.inl (by decide))

/-- To the hostname `"abxc"` the name `"ab.c"` is equal, and so is `"ab"`. -/
theorem dnsCompareName_confuses :
    (WellFormed [[0x61, 0x62], [0x63]] ∧
      dnsCompareName ([0x61, 0x62, 0x78, 0x63] ++ 0 :: []) (encodeLabels [[0x61, 0x62], [0x63]] ++ [0, 1, 0, 1]) = some 0 ∧
      dotted [[0x61, 0x62], [0x63]] ≠ [0x61, 0x62, 0x78, 0x63]) ∧
    WellFormed [[0x61, 0x62]] ∧
      dnsCompareName ([0x61, 0x62, 0x78, 0x63] ++ 0 :: []) (encodeLabels [[0x61, 0x62]] ++ [0, 1, 0, 1]) = some 0 ∧
      dotted [[0x61, 0x62]] ≠ [0x61, 0x62, 0x78, 0x63] := by
  decide

/-! ### The question of a request -/

/-- A byte is written to a pbuf; behind its end there is nothing. -/
def writeAt (buf : List (BitVec 8)) (i : ℕ) (c : BitVec 8) : Option (List (BitVec 8)) :=
  if i < buf.length then some (buf.set i c) else none

/-- The inner loop of `dns_send`: characters are copied up to a dot or the end. It leaves the pbuf, `query`, `n`, and
`pHostname`. -/
def copyLabel : List (BitVec 8) → List (BitVec 8) → ℕ → BitVec 8 →
    Option (List (BitVec 8) × ℕ × BitVec 8 × List (BitVec 8))
  | [], _, _, _ => none
  | c :: pHostname, buf, query, n =>
    if c ≠ 0x2e ∧ c ≠ 0 then (writeAt buf query c).bind fun buf ↦ copyLabel pHostname buf (query + 1) (n + 1)
    else some (buf, query, n, c :: pHostname)

/-- "convert hostname into suitable query format", for at most so many labels; the length of a label is stored behind
the label. -/
def convertHostname : ℕ → List (BitVec 8) → List (BitVec 8) → ℕ → Option (List (BitVec 8) × ℕ)
  | 0, _, _, _ => none
  | labels + 1, pHostname, buf, nptr =>
    (copyLabel pHostname buf (nptr + 1) 0).bind fun (buf, query, n, pHostname) ↦
      (writeAt buf nptr n).bind fun buf ↦
        (pHostname.head?).bind fun c ↦
          if c ≠ 0 then convertHostname labels pHostname.tail buf query else some (buf, query)

/-- A few bytes in a row. -/
def writeBytes : List (BitVec 8) → ℕ → List (BitVec 8) → Option (List (BitVec 8))
  | buf, _, [] => some buf
  | buf, i, c :: cs => (writeAt buf i c).bind fun buf ↦ writeBytes buf (i + 1) cs

/-- The size of the pbuf of `dns_send`. -/
def dnsSendSize : ℕ := sizeofDnsHdr + dnsMaxNameLength + sizeofDnsQuery

/-- What `dns_send` makes of the pbuf, up to `pbuf_realloc`. -/
def dnsSendMessage (buf name : List (BitVec 8)) (id : BitVec 8) : Option (List (BitVec 8)) :=
  (writeBytes buf 0 [0, id, 0x01, 0, 0, 1, 0, 0, 0, 0, 0, 0]).bind fun buf ↦
    (convertHostname name.length name buf sizeofDnsHdr).bind fun (buf, query) ↦
      (writeAt buf query 0).bind fun buf ↦
        (writeBytes buf (query + 1) [0, 1, 0, 1]).map fun buf ↦ buf.take (query + 1 + sizeofDnsQuery)

/-- **What the question is to be**: it fits, it is a name of labels of from 1 to 63 bytes with the type A and the class
IN behind it, the name ends there for `dns_parse_name`, and it is the hostname for `dns_compare_name`. -/
def QuestionRight (buf name : List (BitVec 8)) (id : BitVec 8) : Prop :=
  ∃ msg labels, dnsSendMessage buf name id = some msg ∧ labels ≠ [] ∧ WellFormed labels ∧
    msg.drop sizeofDnsHdr = encodeLabels labels ++ [0, 1, 0, 1] ∧
    dnsParseName (msg.drop sizeofDnsHdr) = some [0, 1, 0, 1] ∧ dnsCompareName name (msg.drop sizeofDnsHdr) = some 0

/-! What is written so far is at the front of the pbuf. -/

variable {a b : BitVec 8} {front room behind hostname : List (BitVec 8)} {i : ℕ}

theorem writeAt_append (front : List (BitVec 8)) (a c : BitVec 8) (room : List (BitVec 8)) :
    writeAt (front ++ a :: room) front.length c = some (front ++ c :: room) := by
  rw [writeAt, if_pos (by simp)]
  simp

theorem writeBytes_spec (cs front : List (BitVec 8)) (room : List (BitVec 8)) :
    writeBytes (front ++ room) front.length cs =
      if cs.length ≤ room.length then some (front ++ (cs ++ room.drop cs.length)) else none := by
  induction cs generalizing front room with
  | nil => simp [writeBytes]
  | cons c cs ih =>
    rcases room with - | ⟨a, room⟩
    · simp [writeBytes, writeAt]
    · have hrest := ih (front ++ [c]) room
      rw [List.length_append, List.length_singleton, List.append_assoc, List.singleton_append] at hrest
      rw [writeBytes, writeAt_append, Option.bind_some, hrest]
      simp

/-- A dot, or the end of the hostname. -/
def IsStop (c : BitVec 8) : Prop := c = 0x2e ∨ c = 0

/-- **A label is copied**, if there is room for it. -/
theorem copyLabel_spec (hl : ∀ c ∈ l, ¬IsStop c) (hc : IsStop c) (rest front room : List (BitVec 8)) (n : BitVec 8) :
    copyLabel (l ++ c :: rest) (front ++ room) front.length n =
      if l.length ≤ room.length then
        some (front ++ (l ++ room.drop l.length), front.length + l.length, n + BitVec.ofNat 8 l.length, c :: rest)
      else none := by
  induction l generalizing front room n with
  | nil =>
    rw [List.nil_append, copyLabel, if_neg]
    · simp
    · rintro ⟨hdot, hzero⟩
      exact hc.elim hdot hzero
  | cons x l ih =>
    obtain ⟨hx, htail⟩ := List.forall_mem_cons.1 hl
    rw [List.cons_append, copyLabel, if_pos (not_or.1 hx)]
    rcases room with - | ⟨y, room⟩
    · simp [writeAt]
    · have hrest := ih htail (front ++ [x]) room (n + 1)
      have hcount : n + 1 + BitVec.ofNat 8 l.length = n + BitVec.ofNat 8 (l.length + 1) := by
        rw [BitVec.ofNat_add]
        ac_rfl
      rw [List.length_append, List.length_singleton, List.append_assoc, List.singleton_append, hcount] at hrest
      rw [writeAt_append, Option.bind_some, hrest]
      simp [Nat.add_assoc, Nat.add_comm 1]

theorem writeAt_length {buf buf' : List (BitVec 8)} (h : writeAt buf i c = some buf') : buf'.length = buf.length := by
  obtain ⟨-, h⟩ := Option.ite_none_right_eq_some.1 h
  exact Option.some.inj h ▸ List.length_set

theorem copyLabel_length {buf : List (BitVec 8)} {n : BitVec 8} {o : List (BitVec 8) × ℕ × BitVec 8 × List (BitVec 8)}
    (h : copyLabel mem buf i n = some o) : o.1.length = buf.length := by
  induction mem generalizing buf i n with
  | nil => cases h
  | cons c mem ih =>
    rw [copyLabel] at h
    split_ifs at h with hc
    · obtain ⟨buf', hbuf', h⟩ := Option.bind_eq_some_iff.1 h
      exact (ih h).trans (writeAt_length hbuf')
    · exact Option.some.inj h ▸ rfl

/-- The hostname, encoded, without the zero at its end. -/
def encoded (labels : List (List (BitVec 8))) : List (BitVec 8) :=
  labels.flatMap fun label ↦ BitVec.ofNat 8 label.length :: label

theorem encoded_cons (l : List (BitVec 8)) (labels : List (List (BitVec 8))) :
    encoded (l :: labels) = BitVec.ofNat 8 l.length :: (l ++ encoded labels) := by
  simp [encoded]

/-- **The labels are written**, if there is room for them. -/
theorem convertHostname_spec (hlabels : ∀ l ∈ labels, ∀ c ∈ l, ¬IsStop c) (hne : labels ≠ []) (hfuel : labels.length ≤ fuel)
    (front room behind : List (BitVec 8)) :
    convertHostname fuel (dotted labels ++ 0 :: behind) (front ++ room) front.length =
      if (encoded labels).length ≤ room.length then
        some (front ++ (encoded labels ++ room.drop (encoded labels).length), front.length + (encoded labels).length)
      else none := by
  induction labels generalizing fuel front room with
  | nil => exact absurd rfl hne
  | cons l labels ih =>
    rcases fuel with - | fuel
    · simp at hfuel
    obtain ⟨hl, htail⟩ := List.forall_mem_cons.1 hlabels
    -- a dot and the other labels, or the end
    obtain ⟨c, rest, hc, hmem, hlast⟩ : ∃ c rest, IsStop c ∧ dotted (l :: labels) ++ 0 :: behind = l ++ c :: rest ∧
        (labels = [] ∧ c = 0 ∨ labels ≠ [] ∧ c ≠ 0 ∧ rest = dotted labels ++ 0 :: behind) := by
      rcases Decidable.em (labels = []) with rfl | hmore
      · exact ⟨0, behind, .inr rfl, by rw [dotted_singleton], .inl ⟨rfl, rfl⟩⟩
      · exact ⟨0x2e, _, .inl rfl, by rw [dotted_cons l hmore, List.append_assoc, List.cons_append],
          .inr ⟨hmore, by decide, rfl⟩⟩
    rw [hmem, convertHostname]
    rcases room with - | ⟨x, room⟩
    · -- no room for the length
      rw [encoded_cons, if_neg (by simp)]
      refine Option.bind_eq_none_iff.2 fun ⟨buf, query, n, pHostname⟩ hcopy ↦ ?_
      have hlen := copyLabel_length hcopy
      rw [List.append_nil] at hlen
      refine Option.bind_eq_none_iff.2 fun buf' hwrite ↦ ?_
      obtain ⟨hlt, -⟩ := Option.ite_none_right_eq_some.1 hwrite
      exact absurd hlt (by simp [hlen])
    have hcopy := copyLabel_spec hl hc rest (front ++ [x]) room 0
    rw [List.length_append, List.length_singleton, List.append_assoc, List.singleton_append, zero_add] at hcopy
    rw [hcopy, encoded_cons]
    rcases Nat.lt_or_ge room.length l.length with hshort | hroom
    · rw [if_neg hshort.not_ge, if_neg (by simp; omega)]
      rfl
    rw [if_pos hroom, Option.bind_some]
    dsimp only
    rw [List.append_assoc, List.singleton_append, writeAt_append, Option.bind_some, List.head?_cons, Option.bind_some,
      List.tail_cons]
    rcases hlast with ⟨rfl, rfl⟩ | ⟨hmore, hdot, rfl⟩
    · rw [if_neg (not_not.2 rfl), if_pos (by simpa [encoded] using hroom)]
      simp [encoded, Nat.add_assoc, Nat.add_comm 1]
    · have hfront : front ++ BitVec.ofNat 8 l.length :: (l ++ room.drop l.length) =
          (front ++ BitVec.ofNat 8 l.length :: l) ++ room.drop l.length := by simp
      have hlength : front.length + 1 + l.length = (front ++ BitVec.ofNat 8 l.length :: l).length := by
        simp
        omega
      rw [if_pos hdot, hfront, hlength, ih htail hmore (Nat.le_of_succ_le_succ hfuel)]
      refine if_congr ?_ ?_ rfl
      · simp
        omega
      · simp only [List.append_assoc, List.cons_append, List.length_append, List.length_cons, List.drop_drop,
          List.drop_succ_cons]
        refine congrArg some (Prod.ext rfl ?_)
        dsimp only
        omega

/-- A byte for the length of each label, in the place of a dot; and one more. -/
theorem encoded_length (hne : labels ≠ []) : (encoded labels).length = (dotted labels).length + 1 := by
  induction labels with
  | nil => exact absurd rfl hne
  | cons l labels ih =>
    rw [encoded_cons, List.length_cons, List.length_append]
    rcases Decidable.em (labels = []) with rfl | hmore
    · rw [dotted_singleton, encoded, List.flatMap_nil, List.length_nil, Nat.add_zero]
    · rw [ih hmore, dotted_cons l hmore, List.length_append, List.length_cons, Nat.add_assoc]

theorem length_le_encoded (labels : List (List (BitVec 8))) : labels.length ≤ (encoded labels).length := by
  induction labels with
  | nil => exact Nat.zero_le 0
  | cons l labels ih =>
    rw [encoded_cons, List.length_cons, List.length_cons, List.length_append]
    omega

/-- The labels of a hostname have no dots, and no other characters than the hostname. -/
theorem not_isStop_of_mem_splitOn (hzero : ∀ c ∈ hostname, c ≠ 0) : ∀ l ∈ hostname.splitOn 0x2e, ∀ c ∈ l, ¬IsStop c := by
  induction hostname with
  | nil => simp
  | cons x hostname ih =>
    obtain ⟨hx, htail⟩ := List.forall_mem_cons.1 hzero
    have hrest := ih htail
    rw [List.splitOn_cons_eq_if_modifyHead]
    split_ifs with hdot
    · exact List.forall_mem_cons.2 ⟨by simp, hrest⟩
    · generalize hostname.splitOn 0x2e = labels at hrest ⊢
      rcases labels with - | ⟨l, labels⟩
      · simp
      · obtain ⟨hl, hlabels⟩ := List.forall_mem_cons.1 hrest
        refine List.forall_mem_cons.2 ⟨List.forall_mem_cons.2 ⟨?_, hl⟩, hlabels⟩
        exact not_or.2 ⟨by simpa using hdot, hx⟩

theorem dotted_splitOn (hostname : List (BitVec 8)) : dotted (hostname.splitOn 0x2e) = hostname :=
  List.intercalate_splitOn 0x2e

/-- **`dns_send`** writes the message for a hostname if it has room for two bytes more than the hostname has; else it
writes behind the pbuf. -/
theorem dnsSendMessage_spec (hzero : ∀ c ∈ hostname, c ≠ 0) {buf : List (BitVec 8)} (hbuf : buf.length = dnsSendSize)
    (behind : List (BitVec 8)) (id : BitVec 8) :
    dnsSendMessage buf (hostname ++ 0 :: behind) id =
      if hostname.length + 2 ≤ dnsMaxNameLength then some (dnsQuery hostname id) else none := by
  have hne : hostname.splitOn 0x2e ≠ [] := List.splitOn_ne_nil _ _
  have hdotted := dotted_splitOn hostname
  have hlabels := not_isStop_of_mem_splitOn hzero
  have hlabelsBytes : dnsLabels hostname = encoded (hostname.splitOn 0x2e) ++ [0] := rfl
  rw [dnsQuery, hlabelsBytes]
  generalize hostname.splitOn 0x2e = labels at *
  subst hdotted
  have hlen := encoded_length hne
  set header : List (BitVec 8) := [0, id, 0x01, 0, 0, 1, 0, 0, 0, 0, 0, 0] with hheader
  have hheaderLen : header.length = sizeofDnsHdr := rfl
  have hsize : dnsSendSize = sizeofDnsHdr + (dnsMaxNameLength + sizeofDnsQuery) := by
    rw [dnsSendSize, Nat.add_assoc]
  -- the header
  have hfirst := writeBytes_spec header [] buf
  rw [List.nil_append, List.length_nil, List.nil_append, hheaderLen, if_pos (by rw [hbuf, hsize]; exact Nat.le_add_right _ _)]
    at hfirst
  -- the name
  have hfuel : labels.length ≤ (dotted labels ++ 0 :: behind).length := by
    have hle := length_le_encoded labels
    rw [List.length_append, List.length_cons]
    omega
  have hname := convertHostname_spec hlabels hne hfuel header (buf.drop sizeofDnsHdr) behind
  rw [hheaderLen] at hname
  rw [dnsSendMessage, hfirst, Option.bind_some, hname]
  have hroom : (buf.drop sizeofDnsHdr).length = dnsMaxNameLength + sizeofDnsQuery := by
    rw [List.length_drop, hbuf, hsize, Nat.add_sub_cancel_left]
  generalize buf.drop sizeofDnsHdr = room at *
  rcases Nat.lt_or_ge room.length (encoded labels).length with hshort | hfits
  · rw [if_neg hshort.not_ge, if_neg (by omega)]
    rfl
  rw [if_pos hfits, Option.bind_some]
  dsimp only
  -- the zero, the type and the class
  have hend := writeBytes_spec [0, 0, 1, 0, 1] (header ++ encoded labels) (room.drop (encoded labels).length)
  rw [List.length_append, List.append_assoc, hheaderLen, writeBytes] at hend
  have htake := congrArg (Option.map fun buf ↦ buf.take (sizeofDnsHdr + (encoded labels).length + 1 + sizeofDnsQuery)) hend
  rw [Option.map_bind] at htake
  refine htake.trans ?_
  rw [List.length_drop, hroom, hlen, show [(0 : BitVec 8), 0, 1, 0, 1].length = sizeofDnsQuery + 1 from rfl]
  rcases Nat.lt_or_ge dnsMaxNameLength ((dotted labels).length + 2) with hlong | hok
  · rw [if_neg (by omega), if_neg hlong.not_ge]
    rfl
  · rw [if_pos (by omega), if_pos hok, Option.map_some, ← List.append_assoc, List.take_left']
    · rw [← List.append_assoc, List.append_assoc _ [0]]
      rfl
    · rw [List.length_append, List.length_append, hheaderLen, hlen]
      rfl

theorem encodeLabels_ne_nil (labels : List (List (BitVec 8))) : encodeLabels labels ≠ [] := by
  simp [encodeLabels]

/-- **A name can be read in one way.** -/
theorem encodeLabels_injective (h : ∀ l ∈ labels, l.length < 2 ^ 8) (h' : ∀ l ∈ labels', l.length < 2 ^ 8)
    (heq : encodeLabels labels = encodeLabels labels') : labels = labels' := by
  induction labels generalizing labels' with
  | nil =>
    rcases labels' with - | ⟨l', labels'⟩
    · rfl
    · rw [encodeLabels_nil, encodeLabels_cons] at heq
      have hnil := (List.append_eq_nil_iff.1 (List.cons.inj heq).2.symm).2
      exact absurd hnil (encodeLabels_ne_nil labels')
  | cons l labels ih =>
    rcases labels' with - | ⟨l', labels'⟩
    · rw [encodeLabels_nil, encodeLabels_cons] at heq
      have hnil := (List.append_eq_nil_iff.1 (List.cons.inj heq).2).2
      exact absurd hnil (encodeLabels_ne_nil labels)
    · obtain ⟨hl, htail⟩ := List.forall_mem_cons.1 h
      obtain ⟨hl', htail'⟩ := List.forall_mem_cons.1 h'
      rw [encodeLabels_cons, encodeLabels_cons] at heq
      obtain ⟨hbyte, hrest⟩ := List.cons.inj heq
      have hlen : l.length = l'.length := by
        have hnat := congrArg BitVec.toNat hbyte
        rwa [BitVec.toNat_ofNat, BitVec.toNat_ofNat, Nat.mod_eq_of_lt hl, Nat.mod_eq_of_lt hl'] at hnat
      obtain ⟨rfl, hend⟩ := List.append_inj hrest hlen
      rw [ih htail htail' hend]

theorem length_lt_encoded (hl : l ∈ labels) : l.length < (encoded labels).length := by
  induction labels with
  | nil => cases hl
  | cons l' labels ih =>
    rw [encoded_cons, List.length_cons, List.length_append]
    rcases List.mem_cons.1 hl with rfl | hl
    · omega
    · have hrest := ih hl
      omega

/-- **The question is right** exactly for a hostname that leaves two bytes of its room and has labels of
from 1 to 63 bytes. -/
theorem dnsSendMessage_question_iff (hzero : ∀ c ∈ hostname, c ≠ 0) (hlen : hostname.length < dnsMaxNameLength)
    {buf : List (BitVec 8)} (hbuf : buf.length = dnsSendSize) (behind : List (BitVec 8)) (id : BitVec 8) :
    QuestionRight buf (hostname ++ 0 :: behind) id ↔
      hostname.length + 2 ≤ dnsMaxNameLength ∧ WellFormed (hostname.splitOn 0x2e) := by
  have hspec := dnsSendMessage_spec hzero hbuf behind id
  have hsplit : hostname.splitOn 0x2e ≠ [] := List.splitOn_ne_nil _ _
  have hquestion : (dnsQuery hostname id).drop sizeofDnsHdr = encodeLabels (hostname.splitOn 0x2e) ++ [0, 1, 0, 1] := rfl
  refine ⟨?_, fun ⟨hfits, hlabels⟩ ↦ ?_⟩
  · rintro ⟨msg, labels, hmsg, -, hwell, heq, -, -⟩
    rw [hspec] at hmsg
    obtain ⟨hfits, hmsg⟩ := Option.ite_none_right_eq_some.1 hmsg
    obtain rfl := Option.some.inj hmsg
    have hsmall : ∀ l ∈ hostname.splitOn 0x2e, l.length < 2 ^ 8 := by
      intro l hl
      have hlt := length_lt_encoded hl
      rw [encoded_length hsplit, dotted_splitOn] at hlt
      rw [dnsMaxNameLength] at hlen
      omega
    rw [hquestion] at heq
    have hsame := encodeLabels_injective (fun l hl ↦ (hwell l hl).2.trans_lt (by decide)) hsmall
      (List.append_cancel_right heq).symm
    exact ⟨hfits, hsame ▸ hwell⟩
  · refine ⟨dnsQuery hostname id, hostname.splitOn 0x2e, by rw [hspec, if_pos hfits], hsplit, hlabels, hquestion, ?_, ?_⟩
    · rw [hquestion, dnsParseName_eq_some]
      exact nameEnds_encodeLabels hlabels hsplit [0, 1, 0, 1]
    · rw [hquestion, dnsCompareName_eq_some, compares_encodeLabels_iff hlabels hsplit]
      have hplace := inPlace_dotted (hostname.splitOn 0x2e) (0 :: behind)
      rwa [dotted_splitOn] at hplace

/-- The question for `"a.bc"`. -/
theorem dnsSendMessage_question_dotted :
    QuestionRight (List.replicate dnsSendSize 0xff) ([0x61, 0x2e, 0x62, 0x63] ++ 0 :: [0x78]) 3 :=
  (dnsSendMessage_question_iff (by decide) (by decide) List.length_replicate [0x78] 3).2 (by decide)

/-- Four labels of 63 bytes are 255 bytes with their dots. -/
def longHostname : List (BitVec 8) := dotted (List.replicate 4 (List.replicate 63 0x61))

set_option maxRecDepth 4000 in
/-- **One byte behind the pbuf**: a hostname that is accepted, with labels that are not too long. -/
theorem dnsSendMessage_overruns : longHostname ≠ [] ∧ (∀ c ∈ longHostname, c ≠ 0) ∧ longHostname.length < dnsMaxNameLength ∧
    WellFormed (longHostname.splitOn 0x2e) ∧
    dnsSendMessage (List.replicate dnsSendSize 0xff) (longHostname ++ 0 :: []) 0 = none ∧
    ¬QuestionRight (List.replicate dnsSendSize 0xff) (longHostname ++ 0 :: []) 0 := by
  have hall : longHostname.all (· != 0) = true := by decide
  have hzero : ∀ c ∈ longHostname, c ≠ 0 := fun c hc ↦ bne_iff_ne.1 (List.all_eq_true.1 hall c hc)
  have hnone : dnsSendMessage (List.replicate dnsSendSize 0xff) (longHostname ++ 0 :: []) 0 = none := by
    rw [dnsSendMessage_spec hzero List.length_replicate [] 0, if_neg (by decide)]
  refine ⟨by decide, hzero, by decide, by decide, hnone, ?_⟩
  rintro ⟨msg, labels, hmsg, -⟩
  cases hnone.symm.trans hmsg

end Lwip.Dns
