import Mathlib.Data.List.Basic

/-!
# Feeding a receiver

A receiver of a stream takes one item at a time. It keeps a state, passes something on now and then, and
may fail: `step a s` is the state behind the item `a` and what was passed on, if it was. `feed` runs it over
a list of items and collects.

* How the stream is **cut** does not matter (`feedChunks_eq`).
* A stream of **letters**, each coded by a list of items: if the receiver's state says which letters it has
  seen, letter by letter, it does so for a word (`feeds_letters`).
* A stream of **frames**, each of which takes an idle receiver back to an idle one: what is passed on is
  what the frames stand for, in order (`feeds_frames`). Where a frame may be lost, what is passed on for the
  others is still in order (`feeds_losing`).

An item may carry more than what the sender has put into it, such as what the memory of the receiver looks
like at that moment; `key` is the sender's part.
-/

namespace Lwip

variable {σ α β γ δ ε : Type*}

/-- Feed a list of items. -/
def feed (step : α → σ → Option (σ × Option β)) : List α → σ → Option (σ × List β)
  | [], s => some (s, [])
  | a :: as, s => (step a s).bind fun r ↦ (feed step as r.1).map fun r' ↦ (r'.1, r.2.toList ++ r'.2)

/-- Feed one list of items after the other. -/
def feedChunks (step : α → σ → Option (σ × Option β)) : List (List α) → σ → Option (σ × List β)
  | [], s => some (s, [])
  | as :: cs, s => (feed step as s).bind fun r ↦ (feedChunks step cs r.1).map fun r' ↦ (r'.1, r.2 ++ r'.2)

variable {step : α → σ → Option (σ × Option β)} {s t u : σ} {as as' : List α} {bs bs' : List β}

theorem feed_append (as as' : List α) (s : σ) : feed step (as ++ as') s =
    (feed step as s).bind fun r ↦ (feed step as' r.1).map fun r' ↦ (r'.1, r.2 ++ r'.2) := by
  induction as generalizing s with
  | nil =>
    rw [List.nil_append, feed, Option.bind_some]
    cases feed step as' s <;> rfl
  | cons a as ih =>
    rw [List.cons_append, feed, feed]
    cases step a s with
    | none => rfl
    | some r =>
      rw [Option.bind_some, Option.bind_some, ih]
      cases feed step as r.1 with
      | none => rfl
      | some r' =>
        rw [Option.bind_some, Option.map_some, Option.bind_some, Option.map_map]
        congr 1
        funext r''
        exact Prod.ext rfl (List.append_assoc ..).symm

/-- **The cuts of a stream do not matter.** -/
theorem feedChunks_eq (cs : List (List α)) (s : σ) : feedChunks step cs s = feed step cs.flatten s := by
  induction cs generalizing s with
  | nil => rfl
  | cons as cs ih =>
    rw [List.flatten_cons, feed_append, feedChunks]
    congr 1
    funext r
    rw [ih]

/-- Items that are read through a function. -/
theorem feed_map (f : γ → α) (cs : List γ) (s : σ) : feed step (cs.map f) s = feed (fun c ↦ step (f c)) cs s := by
  induction cs generalizing s with
  | nil => rfl
  | cons c cs ih =>
    rw [List.map_cons, feed, feed]
    congr 1
    funext r
    rw [ih]

theorem feed_cons_some {a : α} {o : Option β} (h : step a s = some (t, o)) (h' : feed step as t = some (u, bs)) :
    feed step (a :: as) s = some (u, o.toList ++ bs) := by
  rw [feed, h, Option.bind_some, h']
  rfl

theorem feed_append_some (h : feed step as s = some (t, bs)) (h' : feed step as' t = some (u, bs')) :
    feed step (as ++ as') s = some (u, bs ++ bs') := by
  rw [feed_append, h, Option.bind_some, h']
  rfl

/-- **Letters**: `I xs s` says that `s` has seen the letters `xs`, and `enc` codes a letter. Nothing is passed
on. -/
theorem feeds_letters {key : α → ε} {enc : δ → List ε} {I : List δ → σ → Prop} {w : List δ}
    (hletter : ∀ xs x, xs ++ [x] <+: w → ∀ s as, I xs s → as.map key = enc x →
      ∃ t, feed step as s = some (t, []) ∧ I (xs ++ [x]) t)
    (hs : I [] s) (has : as.map key = w.flatMap enc) :
    ∃ t, feed step as s = some (t, []) ∧ I w t := by
  have hfrom : ∀ ys xs, xs ++ ys = w → ∀ s as, I xs s → as.map key = ys.flatMap enc →
      ∃ t, feed step as s = some (t, []) ∧ I w t := by
    intro ys
    induction ys with
    | nil =>
      intro xs hxs s as hs has
      obtain rfl := List.map_eq_nil_iff.1 has
      rw [List.append_nil] at hxs
      exact ⟨s, rfl, hxs ▸ hs⟩
    | cons y ys ih =>
      intro xs hxs s as hs has
      rw [List.flatMap_cons] at has
      obtain ⟨as₁, as₂, rfl, has₁, has₂⟩ := List.map_eq_append_iff.1 has
      have hword : xs ++ [y] ++ ys = w := by rw [← hxs, List.append_assoc, List.singleton_append]
      obtain ⟨t, ht, hI⟩ := hletter xs y ⟨ys, hword⟩ s as₁ hs has₁
      obtain ⟨u, hu, hI'⟩ := ih (xs ++ [y]) hword t as₂ hI has₂
      exact ⟨u, feed_append_some ht hu, hI'⟩
  exact hfrom w [] rfl s as hs has

/-- **Frames**: each of them takes an idle receiver to an idle one, which has passed on what `R` says. -/
theorem feeds_frames {key : α → ε} {frame : γ → List ε} {J : σ → Prop} {R : γ → β → Prop} {ps : List γ}
    (hframe : ∀ p ∈ ps, ∀ s as, J s → as.map key = frame p →
      ∃ t b, feed step as s = some (t, [b]) ∧ J t ∧ R p b)
    (hs : J s) (has : as.map key = ps.flatMap frame) :
    ∃ t bs, feed step as s = some (t, bs) ∧ J t ∧ List.Forall₂ R ps bs := by
  induction ps generalizing s as with
  | nil =>
    obtain rfl := List.map_eq_nil_iff.1 has
    exact ⟨s, [], rfl, hs, .nil⟩
  | cons p ps ih =>
    rw [List.flatMap_cons] at has
    obtain ⟨as₁, as₂, rfl, has₁, has₂⟩ := List.map_eq_append_iff.1 has
    obtain ⟨t, b, ht, hidle, hR⟩ := hframe p List.mem_cons_self s as₁ hs has₁
    obtain ⟨u, bs, hu, hidle', hRs⟩ := ih (fun q hq ↦ hframe q (List.mem_cons_of_mem p hq)) hidle has₂
    exact ⟨u, b :: bs, feed_append_some ht hu, hidle', .cons hR hRs⟩

/-- **Frames that may be lost**: each of them takes the receiver from a state back to it, with what `R` says
passed on, or nothing. -/
theorem feeds_losing {frames : List (γ × List α)} {R : γ × List α → Option β → Prop}
    (hframe : ∀ f ∈ frames, ∃ b, feed step f.2 s = some (s, b.toList) ∧ R f b) :
    ∃ bs, feed step (frames.flatMap Prod.snd) s = some (s, bs.reduceOption) ∧ List.Forall₂ R frames bs := by
  induction frames with
  | nil => exact ⟨[], rfl, .nil⟩
  | cons f frames ih =>
    obtain ⟨b, hb, hR⟩ := hframe f List.mem_cons_self
    obtain ⟨bs, hbs, hRs⟩ := ih fun g hg ↦ hframe g (List.mem_cons_of_mem f hg)
    refine ⟨b :: bs, ?_, .cons hR hRs⟩
    have hreduce : (b :: bs).reduceOption = b.toList ++ bs.reduceOption := by cases b <;> rfl
    rw [hreduce]
    exact feed_append_some hb hbs

/-! ### What is passed on is right -/

theorem feed_cons_eq_some {a : α} : feed step (a :: as) s = some (t, bs) ↔
    ∃ u o bs', step a s = some (u, o) ∧ feed step as u = some (t, bs') ∧ bs = o.toList ++ bs' := by
  rw [feed, Option.bind_eq_some_iff]
  constructor
  · rintro ⟨⟨u, o⟩, hu, h⟩
    obtain ⟨⟨t', bs'⟩, ht, heq⟩ := Option.map_eq_some_iff.1 h
    cases heq
    exact ⟨u, o, bs', hu, ht, rfl⟩
  · rintro ⟨u, o, bs', hu, ht, rfl⟩
    exact ⟨(u, o), hu, Option.map_eq_some_iff.2 ⟨(t, bs'), ht, rfl⟩⟩

/-- **Exactly when all is right.** If one step does not fail, and passes on only what is right, exactly under
a condition, then so it is with a stream and the condition on all its steps. -/
theorem feed_right_iff {I : σ → Prop} {C : α → σ → Prop} {R : β → Prop}
    (hkeep : ∀ a s t o, I s → step a s = some (t, o) → I t)
    (hright : ∀ a s, I s → ((∃ t o, step a s = some (t, o) ∧ ∀ b ∈ o, R b) ↔ C a s)) (hs : I s) :
    (∃ t bs, feed step as s = some (t, bs) ∧ ∀ b ∈ bs, R b) ↔
      ∀ pre a post t bs, as = pre ++ a :: post → feed step pre s = some (t, bs) → C a t := by
  induction as generalizing s with
  | nil =>
    refine iff_of_true ⟨s, [], rfl, nofun⟩ fun pre a post t bs has _ ↦ ?_
    cases pre <;> cases has
  | cons a as ih =>
    constructor
    · rintro ⟨t, bs, hfeed, hR⟩ pre a' post t' bs' has hpre
      obtain ⟨u, o, bs'', hu, hrest, rfl⟩ := feed_cons_eq_some.1 hfeed
      cases pre with
      | nil =>
        cases has
        cases hpre
        exact (hright a s hs).1 ⟨u, o, hu, fun b hb ↦ hR b (List.mem_append_left _ (Option.mem_toList.2 hb))⟩
      | cons x pre =>
        cases has
        obtain ⟨u', o', bs₂, hu', hpre, -⟩ := feed_cons_eq_some.1 hpre
        obtain ⟨rfl, -⟩ := Prod.mk.inj (Option.some.inj (hu.symm.trans hu'))
        exact (ih (hkeep _ _ _ _ hs hu)).1 ⟨t, bs'', hrest, fun b hb ↦ hR b (List.mem_append_right _ hb)⟩
          pre a' post t' bs₂ rfl hpre
    · intro h
      obtain ⟨u, o, hu, hR⟩ := (hright a s hs).2 (h [] a as s [] rfl rfl)
      obtain ⟨t, bs, hrest, hR'⟩ := (ih (hkeep _ _ _ _ hs hu)).2 fun pre a' post t bs has hpre ↦
        h (a :: pre) a' post t (o.toList ++ bs) (congrArg (a :: ·) has) (feed_cons_eq_some.2 ⟨u, o, bs, hu, hpre, rfl⟩)
      refine ⟨t, o.toList ++ bs, feed_cons_eq_some.2 ⟨u, o, bs, hu, hrest, rfl⟩, fun b hb ↦ ?_⟩
      rcases List.mem_append.1 hb with hb | hb
      · exact hR b (Option.mem_toList.1 hb)
      · exact hR' b hb

end Lwip
