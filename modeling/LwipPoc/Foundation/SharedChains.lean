import Mathlib.Data.Finset.Card
import Mathlib.Logic.Function.Basic

/-!
# Shared chains

Nodes that each link to at most one other node, and **handles** on nodes that are held from outside. A
node is kept as long as anything points to it, be it a handle or a link. Chains may be shared: several
nodes may link to the same one, and handles may point into the middle of a chain.

The operations turn handles into links and back, and only two of them change the number of pointers to a
node that stays: `grab` and `drop`. When the last pointer to a node is a handle and is given up, the node
is reaped, and **its link becomes a handle**; so to release a chain is to reap its nodes from the head on
until one of them has another pointer.

* All operations keep the pointers in order (`Ok`), if a link is only set where it closes no cycle.
* Without handles there are no nodes (`Ok.live_eq_empty`); this is where cycles would do harm.
-/

/-- Nodes, their links, and the number of handles on each. -/
structure SharedChains (α : Type*) where
  live : Finset α
  next : α → Option α
  handles : α → ℕ

namespace SharedChains

variable {α : Type*} [DecidableEq α]

/-! ### Pointers -/

/-- The number of links from nodes in `s` to a node. -/
def linksTo (s : Finset α) (next : α → Option α) (x : α) : ℕ := (s.filter fun b ↦ next b = some x).card

section

variable {s : Finset α} {next next' : α → Option α} {a x : α}

theorem linksTo_congr (h : ∀ b ∈ s, next b = next' b) (x : α) : linksTo s next x = linksTo s next' x :=
  congrArg Finset.card (Finset.filter_congr fun b hb ↦ by rw [h b hb])

theorem linksTo_update (ha : a ∉ s) (o : Option α) (x : α) :
    linksTo s (Function.update next a o) x = linksTo s next x :=
  linksTo_congr (fun _ hb ↦ Function.update_of_ne (ne_of_mem_of_not_mem hb ha) _ _) x

theorem linksTo_insert (ha : a ∉ s) (x : α) :
    linksTo (insert a s) next x = linksTo s next x + if next a = some x then 1 else 0 := by
  rw [linksTo, Finset.filter_insert]
  split_ifs with h
  · exact Finset.card_insert_of_notMem fun hmem ↦ ha (Finset.mem_filter.1 hmem).1
  · rfl

/-- The links from `a`, and those from all others. -/
theorem linksTo_erase (next : α → Option α) (ha : a ∈ s) (x : α) :
    linksTo s next x = linksTo (s.erase a) next x + if next a = some x then 1 else 0 := by
  rw [← linksTo_insert (Finset.notMem_erase a s), Finset.insert_erase ha]

theorem linksTo_pos : 0 < linksTo s next x ↔ ∃ b ∈ s, next b = some x := by
  rw [linksTo, Finset.card_pos]
  exact ⟨fun ⟨b, hb⟩ ↦ ⟨b, (Finset.mem_filter.1 hb).1, (Finset.mem_filter.1 hb).2⟩,
    fun ⟨b, hb, h⟩ ↦ ⟨b, Finset.mem_filter.2 ⟨hb, h⟩⟩⟩

end

/-- **The number of pointers to a node**: handles and links. -/
def count (G : SharedChains α) (x : α) : ℕ := G.handles x + linksTo G.live G.next x

variable {G : SharedChains α} {a b l t x : α} {p q : Option α} {as bs : List α}

/-! ### Chains -/

/-- Following the links from `p` one visits the nodes `as`, and comes to the end. -/
def Chain (G : SharedChains α) : Option α → List α → Prop
  | p, [] => p = none
  | p, a :: as => p = some a ∧ a ∈ G.live ∧ G.Chain (G.next a) as

omit [DecidableEq α] in
@[simp] theorem chain_nil : G.Chain p [] ↔ p = none := Iff.rfl

omit [DecidableEq α] in
/-- A chain is determined by its start. -/
theorem Chain.unique (h : G.Chain p as) (h' : G.Chain p bs) : as = bs := by
  induction as generalizing p bs with
  | nil =>
    obtain rfl := h
    cases bs with
    | nil => rfl
    | cons => exact absurd h'.1 (by simp)
  | cons a as ih =>
    obtain ⟨rfl, -, h⟩ := h
    cases bs with
    | nil => exact absurd h' (by simp)
    | cons b bs =>
      obtain ⟨hb, -, h'⟩ := h'
      obtain rfl := Option.some.inj hb
      rw [ih h h']

omit [DecidableEq α] in
theorem Chain.mem_live (h : G.Chain p as) (ha : a ∈ as) : a ∈ G.live := by
  induction as generalizing p with
  | nil => cases ha
  | cons b as ih =>
    rcases List.mem_cons.1 ha with rfl | ha
    · exact h.2.1
    · exact ih h.2.2 ha

omit [DecidableEq α] in
theorem Chain.mem_live_left (h : G.Chain p (as ++ bs)) : ∀ a ∈ as, a ∈ G.live := fun _ ha ↦
  h.mem_live (List.mem_append_left _ ha)

omit [DecidableEq α] in
theorem Chain.mem_live_head {n : ℕ} (h : G.Chain (some a) as) (hlen : n < as.length) : a ∈ G.live := by
  cases as with
  | nil => exact absurd hlen (Nat.not_lt_zero _)
  | cons b as =>
    obtain rfl := Option.some.inj h.1
    exact h.2.1

omit [DecidableEq α] in
/-- The rest of a chain from one of its nodes on. -/
theorem Chain.suffix (h : G.Chain p (as ++ a :: bs)) : G.Chain (some a) (a :: bs) := by
  induction as generalizing p with
  | nil =>
    obtain ⟨rfl, h⟩ := h
    exact ⟨rfl, h⟩
  | cons b as ih => exact ih h.2.2

omit [DecidableEq α] in
/-- **A chain visits no node twice**: the second visit would start a shorter chain than the first. -/
theorem Chain.nodup (h : G.Chain p as) : as.Nodup := by
  induction as generalizing p with
  | nil => exact List.nodup_nil
  | cons a as ih =>
    refine List.nodup_cons.2 ⟨fun hmem ↦ ?_, ih h.2.2⟩
    obtain ⟨us, vs, rfl⟩ := List.append_of_mem hmem
    have hlen := congrArg List.length (h.unique (h.1 ▸ h.2.2.suffix))
    simp only [List.length_cons, List.length_append] at hlen
    omega

theorem Chain.length_le (h : G.Chain p as) : as.length ≤ G.live.card := by
  rw [← List.toFinset_card_of_nodup h.nodup]
  exact Finset.card_le_card fun a ha ↦ h.mem_live (List.mem_toFinset.1 ha)

omit [DecidableEq α] in
/-- A chain goes on from each of its nodes. -/
theorem Chain.next_mem (h : G.Chain p as) (ha : a ∈ as) (hb : G.next a = some b) : b ∈ as := by
  induction as generalizing p with
  | nil => cases ha
  | cons c as ih =>
    obtain ⟨-, -, hrest⟩ := h
    rcases List.mem_cons.1 ha with rfl | ha
    · rw [hb] at hrest
      cases as with
      | nil => cases hrest
      | cons d as =>
        obtain rfl := Option.some.inj hrest.1
        exact List.mem_cons_of_mem _ List.mem_cons_self
    · exact List.mem_cons_of_mem _ (ih hrest ha)

omit [DecidableEq α] in
/-- A chain only depends on the nodes that it visits. -/
theorem Chain.frame {G' : SharedChains α} (h : G.Chain p as)
    (hlive : ∀ a ∈ as, a ∈ G'.live) (hnext : ∀ a ∈ as, G'.next a = G.next a) : G'.Chain p as := by
  induction as generalizing p with
  | nil => exact h
  | cons a as ih =>
    refine ⟨h.1, hlive a List.mem_cons_self, ?_⟩
    rw [hnext a List.mem_cons_self]
    exact ih h.2.2 (fun b hb ↦ hlive b (List.mem_cons_of_mem _ hb))
      fun b hb ↦ hnext b (List.mem_cons_of_mem _ hb)

omit [DecidableEq α] in
/-- Only the link of one node changes: a chain goes to this node as before. -/
theorem Chain.redirect {G' : SharedChains α} {cs : List α} (h : G.Chain p (as ++ l :: bs))
    (hl : G'.Chain (some l) cs) (hlive : ∀ a ∈ as, a ∈ G'.live)
    (hnext : ∀ a, a ≠ l → G'.next a = G.next a) : G'.Chain p (as ++ cs) := by
  have hnodup := h.nodup
  induction as generalizing p with
  | nil =>
    obtain ⟨rfl, -⟩ := h
    exact hl
  | cons a as ih =>
    have hne : a ≠ l := by
      rintro rfl
      exact (List.nodup_cons.1 hnodup).1 (List.mem_append_right _ List.mem_cons_self)
    refine ⟨h.1, hlive a List.mem_cons_self, ?_⟩
    rw [hnext a hne]
    exact ih h.2.2 (fun b hb ↦ hlive b (List.mem_cons_of_mem _ hb)) (List.nodup_cons.1 hnodup).2

omit [DecidableEq α] in
/-- A node that is visited, but not first, is linked to. -/
theorem Chain.linked (h : G.Chain (some a) as) (hx : x ∈ as) (hne : x ≠ a) :
    ∃ b ∈ G.live, G.next b = some x := by
  induction as generalizing a with
  | nil => cases hx
  | cons b as ih =>
    obtain ⟨hb, hlive, hrest⟩ := h
    obtain rfl := Option.some.inj hb
    have hx' : x ∈ as := (List.mem_cons.1 hx).resolve_left hne
    cases hnext : G.next a with
    | none =>
      rw [hnext] at hrest
      cases as with
      | nil => cases hx'
      | cons => exact absurd hrest.1 (by simp)
    | some c =>
      rw [hnext] at hrest
      rcases eq_or_ne x c with rfl | hc
      · exact ⟨a, hlive, hnext⟩
      · exact ih hrest hx' hc

/-! ### Order -/

/-- **The pointers are in order**: exactly the nodes that something points to are there, and every chain
comes to an end. -/
structure Ok (G : SharedChains α) : Prop where
  held : ∀ a, a ∈ G.live ↔ 0 < G.count a
  ends : ∀ a ∈ G.live, ∃ as, G.Chain (some a) as

theorem Ok.next_live (h : G.Ok) (ha : a ∈ G.live) (hb : G.next a = some b) : b ∈ G.live := by
  rw [h.held, count]
  have hpos : 0 < linksTo G.live G.next b := linksTo_pos.2 ⟨a, ha, hb⟩
  omega

/-- Every pointer leads to the end. -/
theorem Ok.chain_next (h : G.Ok) (ha : a ∈ G.live) : ∃ as, G.Chain (G.next a) as := by
  obtain ⟨_ | ⟨b, as⟩, has⟩ := h.ends a ha
  · cases has
  · obtain rfl := Option.some.inj has.1
    exact ⟨as, has.2.2⟩

/-- **Nodes without handles, to which no other nodes link, are not there**: each would be linked to by
another one of them, whose chain is longer. -/
theorem Ok.not_live (h : G.Ok) {S : Set α} (hno : ∀ a ∈ S, G.handles a = 0)
    (hlinks : ∀ b ∈ G.live, ∀ a ∈ S, G.next b = some a → b ∈ S) (ha : a ∈ S) : a ∉ G.live := by
  intro hlive
  have hlong : ∀ n, ∃ b ∈ S, ∃ as, G.Chain (some b) as ∧ n < as.length := by
    intro n
    induction n with
    | zero =>
      obtain ⟨as, has⟩ := h.ends a hlive
      cases as with
      | nil => cases has
      | cons => exact ⟨a, ha, _, has, Nat.succ_pos _⟩
    | succ n ih =>
      obtain ⟨b, hb, as, has, hlen⟩ := ih
      have hpos := (h.held b).1 (has.mem_live_head hlen)
      rw [count, hno b hb, Nat.zero_add, linksTo_pos] at hpos
      obtain ⟨c, hc, hcb⟩ := hpos
      refine ⟨c, hlinks c hc b hb hcb, c :: as, ⟨rfl, hc, ?_⟩, Nat.succ_lt_succ hlen⟩
      rwa [hcb]
  obtain ⟨b, -, as, has, hlen⟩ := hlong G.live.card
  exact absurd has.length_le (by omega)

/-- **Without handles there are no nodes.** -/
theorem Ok.live_eq_empty (h : G.Ok) (hno : ∀ a, G.handles a = 0) : G.live = ∅ :=
  Finset.eq_empty_iff_forall_notMem.2 fun _ ↦
    h.not_live (S := Set.univ) (fun b _ ↦ hno b) (fun _ _ _ _ _ ↦ trivial) trivial

/-! ### Operations -/

/-- One more handle on a node, if there is one. -/
def give (handles : α → ℕ) (p : Option α) (x : α) : ℕ := handles x + if p = some x then 1 else 0

/-- One handle less on a node. -/
def take (handles : α → ℕ) (a x : α) : ℕ := handles x - if a = x then 1 else 0

/-- A new node, with a handle on it. -/
def alloc (G : SharedChains α) (a : α) : SharedChains α :=
  ⟨insert a G.live, Function.update G.next a none, give G.handles (some a)⟩

/-- Another handle on a node. -/
def grab (G : SharedChains α) (a : α) : SharedChains α := ⟨G.live, G.next, give G.handles (some a)⟩

/-- A handle on `t` becomes the link of `l`. -/
def link (G : SharedChains α) (l t : α) : SharedChains α :=
  ⟨G.live, Function.update G.next l (some t), take G.handles t⟩

/-- The link of `l` becomes a handle. -/
def cut (G : SharedChains α) (l : α) : SharedChains α :=
  ⟨G.live, Function.update G.next l none, give G.handles (G.next l)⟩

/-- A handle is given up, but it was not the last pointer. -/
def drop (G : SharedChains α) (a : α) : SharedChains α := ⟨G.live, G.next, take G.handles a⟩

/-- The last pointer, a handle, is given up, and the link of the node becomes a handle. -/
def reap (G : SharedChains α) (a : α) : SharedChains α :=
  ⟨G.live.erase a, G.next, give (take G.handles a) (G.next a)⟩

theorem Ok.handles_of_not_live (h : G.Ok) (ha : a ∉ G.live) :
    G.handles a = 0 ∧ linksTo G.live G.next a = 0 := by
  have hcount : ¬ 0 < G.count a := fun hpos ↦ ha ((h.held a).2 hpos)
  rw [count] at hcount
  omega

theorem Ok.count_alloc (h : G.Ok) (ha : a ∉ G.live) (x : α) :
    (G.alloc a).count x = if x = a then 1 else G.count x := by
  have hlinks : linksTo (insert a G.live) (Function.update G.next a none) x = linksTo G.live G.next x := by
    rw [linksTo_insert ha, linksTo_update ha, Function.update_self]
    simp
  show give G.handles (some a) x + linksTo (insert a G.live) (Function.update G.next a none) x = _
  rw [hlinks, give]
  split_ifs with hx hxa hxa
  · obtain rfl := hxa
    obtain ⟨hhandles, hlinks⟩ := h.handles_of_not_live ha
    omega
  · exact absurd (Option.some.inj hx).symm hxa
  · exact absurd (congrArg some hxa.symm) hx
  · rfl

theorem Ok.alloc (h : G.Ok) (ha : a ∉ G.live) : (G.alloc a).Ok := by
  have hframe : ∀ {p as}, G.Chain p as → (G.alloc a).Chain p as := fun hc ↦
    hc.frame (fun b hb ↦ Finset.mem_insert_of_mem (hc.mem_live hb))
      fun b hb ↦ Function.update_of_ne (ne_of_mem_of_not_mem (hc.mem_live hb) ha) _ _
  refine ⟨fun b ↦ ?_, fun b hb ↦ ?_⟩
  · rw [h.count_alloc ha]
    show b ∈ insert a G.live ↔ _
    rw [Finset.mem_insert]
    split_ifs with hb
    · simp [hb]
    · rw [← h.held b]
      simp [hb]
  · rcases Finset.mem_insert.1 hb with rfl | hb
    · exact ⟨[b], rfl, Finset.mem_insert_self _ _, Function.update_self _ _ _⟩
    · obtain ⟨as, has⟩ := h.ends b hb
      exact ⟨as, hframe has⟩

theorem count_grab (x : α) : (G.grab a).count x = G.count x + if a = x then 1 else 0 := by
  show give G.handles (some a) x + _ = G.handles x + _ + _
  simp only [give, Option.some.injEq]
  rw [Nat.add_right_comm]
  rfl

theorem Ok.grab (h : G.Ok) (ha : a ∈ G.live) : (G.grab a).Ok := by
  refine ⟨fun b ↦ ?_, fun b hb ↦ ?_⟩
  · rw [count_grab]
    show b ∈ G.live ↔ _
    rw [h.held b]
    split_ifs with hb
    · have hpos := (h.held a).1 ha
      rw [hb] at hpos
      omega
    · rw [Nat.add_zero]
  · obtain ⟨as, has⟩ := h.ends b hb
    exact ⟨as, has.frame (fun _ hc ↦ has.mem_live hc) fun _ _ ↦ rfl⟩

/-- Setting a link does not change the number of pointers. -/
theorem count_link (hl : l ∈ G.live) (hnext : G.next l = none) (ht : 0 < G.handles t) (x : α) :
    (G.link l t).count x = G.count x := by
  show take G.handles t x + linksTo G.live (Function.update G.next l (some t)) x = _
  rw [count, linksTo_erase _ hl, linksTo_erase G.next hl, linksTo_update (Finset.notMem_erase l _),
    Function.update_self, hnext, take]
  simp only [Option.some.injEq, reduceCtorEq, if_false]
  split_ifs with hx
  · rw [hx] at ht
    omega
  · omega

theorem Ok.link (h : G.Ok) (hl : l ∈ G.live) (hnext : G.next l = none) (ht : 0 < G.handles t)
    (hchain : G.Chain (some t) as) (hno : l ∉ as) : (G.link l t).Ok := by
  have hrest : (G.link l t).Chain (some l) (l :: as) := by
    refine ⟨rfl, hl, ?_⟩
    show (G.link l t).Chain (Function.update G.next l (some t) l) as
    rw [Function.update_self]
    exact hchain.frame (fun a ha ↦ hchain.mem_live ha)
      fun a ha ↦ Function.update_of_ne (ne_of_mem_of_not_mem ha hno) _ _
  refine ⟨fun b ↦ ?_, fun b hb ↦ ?_⟩
  · rw [count_link hl hnext ht]
    exact h.held b
  · obtain ⟨bs, hbs⟩ := h.ends b hb
    by_cases hmem : l ∈ bs
    · obtain ⟨us, vs, rfl⟩ := List.append_of_mem hmem
      exact ⟨_, hbs.redirect hrest hbs.mem_live_left fun a ha ↦ Function.update_of_ne ha _ _⟩
    · exact ⟨bs, hbs.frame (fun a ha ↦ hbs.mem_live ha)
        fun a ha ↦ Function.update_of_ne (ne_of_mem_of_not_mem ha hmem) _ _⟩

/-- Cutting a link does not change the number of pointers. -/
theorem count_cut (hl : l ∈ G.live) (x : α) : (G.cut l).count x = G.count x := by
  show give G.handles (G.next l) x + linksTo G.live (Function.update G.next l none) x = _
  rw [count, linksTo_erase _ hl, linksTo_erase G.next hl, linksTo_update (Finset.notMem_erase l _),
    Function.update_self, give]
  simp only [reduceCtorEq, if_false]
  omega

theorem Ok.cut (h : G.Ok) (hl : l ∈ G.live) : (G.cut l).Ok := by
  have hrest : (G.cut l).Chain (some l) [l] := ⟨rfl, hl, Function.update_self _ _ _⟩
  refine ⟨fun b ↦ ?_, fun b hb ↦ ?_⟩
  · rw [count_cut hl]
    exact h.held b
  · obtain ⟨bs, hbs⟩ := h.ends b hb
    by_cases hmem : l ∈ bs
    · obtain ⟨us, vs, rfl⟩ := List.append_of_mem hmem
      exact ⟨_, hbs.redirect hrest hbs.mem_live_left fun a ha ↦ Function.update_of_ne ha _ _⟩
    · exact ⟨bs, hbs.frame (fun a ha ↦ hbs.mem_live ha)
        fun a ha ↦ Function.update_of_ne (ne_of_mem_of_not_mem ha hmem) _ _⟩

theorem count_drop (ha : 0 < G.handles a) (x : α) :
    (G.drop a).count x + (if a = x then 1 else 0) = G.count x := by
  show take G.handles a x + linksTo G.live G.next x + _ = G.handles x + _
  rw [take]
  split_ifs with hx
  · rw [hx] at ha
    omega
  · rfl

theorem Ok.drop (h : G.Ok) (ha : 0 < G.handles a) (hcount : G.count a ≠ 1) : (G.drop a).Ok := by
  refine ⟨fun b ↦ ?_, fun b hb ↦ ?_⟩
  · have hb := count_drop ha b
    show b ∈ G.live ↔ _
    rw [h.held b]
    split_ifs at hb with heq
    · have hpos : 0 < G.count a := by
        rw [count]
        omega
      rw [heq] at hcount hpos
      omega
    · omega
  · obtain ⟨as, has⟩ := h.ends b hb
    exact ⟨as, has.frame (fun _ hc ↦ has.mem_live hc) fun _ _ ↦ rfl⟩

/-- Reaping changes no other number of pointers. -/
theorem count_reap (hlive : a ∈ G.live) (ha : 0 < G.handles a) (x : α) :
    (G.reap a).count x + (if a = x then 1 else 0) = G.count x := by
  show give (take G.handles a) (G.next a) x + linksTo (G.live.erase a) G.next x + _ = _
  rw [count, linksTo_erase _ hlive, give, take]
  split_ifs with hx hn hn
  · rw [hx] at hn ha
    omega
  · rw [hx] at ha
    omega
  · omega
  · omega

theorem Ok.reap (h : G.Ok) (ha : 0 < G.handles a) (hcount : G.count a = 1) : (G.reap a).Ok := by
  have hlive : a ∈ G.live := (h.held a).2 (by omega)
  refine ⟨fun b ↦ ?_, fun b hb ↦ ?_⟩
  · have hb := count_reap hlive ha b
    show b ∈ G.live.erase a ↔ _
    rw [Finset.mem_erase, h.held b]
    split_ifs at hb with heq
    · rw [heq] at hcount
      constructor
      · exact fun hne ↦ absurd heq.symm hne.1
      · omega
    · constructor
      · omega
      · exact fun hpos ↦ ⟨fun hba ↦ heq hba.symm, by omega⟩
  · obtain ⟨hne, hb⟩ := Finset.mem_erase.1 hb
    obtain ⟨as, has⟩ := h.ends b hb
    -- nothing links to the node that goes
    have hno : linksTo G.live G.next a = 0 := by
      rw [count] at hcount
      omega
    have hnot : a ∉ as := by
      intro hmem
      have hpos := linksTo_pos.2 (has.linked hmem hne.symm)
      omega
    exact ⟨as, has.frame (fun c hc ↦ Finset.mem_erase.2 ⟨fun heq ↦ hnot (heq ▸ hc), has.mem_live hc⟩)
      fun _ _ ↦ rfl⟩

end SharedChains
