import DocBlocks.Proofs.Reading.Pile
import DocBlocks.Reading.Bundle

/-!
# What bundles hold

A bundle stands for its piles (`Bundle.piles`). What is done to a bundle is done to each of them,
and joining bundles adds no pile.

* `Bundle.exists_rebuilt_of_mem_takeIn`: each pile behind a terminal is one of those before,
  rebuilt, with the terminal on top.
* `Bundle.exists_rebuilt_of_mem_complete`: each pile of a complete source is one of those before,
  rebuilt, in a state that accepts.
-/

namespace DocBlocks

theorem Concrete.eq_of_isSameLeaf {c d : Concrete} (h : c.isSameLeaf d = true) : c = d := by
  cases c <;> cases d <;> simp_all [isSameLeaf]

/-- The trees and the bundles of strands. -/
def Strands.toList : Strands → List (Concrete × Bundle)
  | one c b => [(c, b)]
  | more c b others => (c, b) :: others.toList

namespace Bundle

variable {book : RuleBook}

/-! ### The piles of a bundle -/

theorem mem_strandPiles {s : State} {p : Pile} (strands : Strands) :
    p ∈ strandPiles s strands ↔ ∃ x ∈ strands.toList, ∃ q ∈ x.2.piles, ⟨x.1, s⟩ :: q = p :=
  match strands with
  | .one c b => by simp [strandPiles, Strands.toList]
  | .more c b others => by
    simp only [strandPiles, Strands.toList, List.mem_append, List.mem_map, List.mem_cons,
      exists_eq_or_imp, mem_strandPiles others]

/-- The piles of a bundle have reached its state. -/
theorem state_of_mem_piles {b : Bundle} {p : Pile} (h : p ∈ b.piles) : p.state = b.state := by
  cases b with
  | ground =>
    obtain rfl := List.mem_singleton.1 h
    rfl
  | joint s byte strands =>
    obtain ⟨x, -, q, -, rfl⟩ := (mem_strandPiles strands).1 h
    rfl

theorem mem_piles_push {b : Bundle} {c : Concrete} {s : State} {byte : Nat} {p : Pile} :
    p ∈ (b.push c s byte).piles ↔ ∃ q ∈ b.piles, ⟨c, s⟩ :: q = p :=
  List.mem_map

theorem exists_of_mem_piles_pushAll {b : Bundle} {cs : List Concrete} {s : State} {byte : Nat}
    {p : Pile} (h : p ∈ (b.pushAll cs s byte).piles) : ∃ q ∈ b.piles, p = q.pushAll cs s := by
  induction cs generalizing b with
  | nil => exact ⟨p, h, rfl⟩
  | cons c cs ih =>
    obtain ⟨q', hq', rfl⟩ := ih h
    obtain ⟨q, hq, rfl⟩ := mem_piles_push.1 hq'
    exact ⟨q, hq, rfl⟩

/-! ### Joining adds no pile -/

/-- Whether each pile of a bundle is one of two others. -/
def HoldsOf (a b c : Bundle) : Prop := ∀ p ∈ c.piles, p ∈ a.piles ∨ p ∈ b.piles

/-- What strands are once one more has been added: the new one, those that were there, and one that
has the same leaf and the bundles joined. -/
theorem mem_addStrand {c : Concrete} {below : Bundle} {join : Bundle → Bundle} {strands : Strands}
    {x : Concrete × Bundle} (h : x ∈ (addStrand book c below join strands).toList) :
    x = (c, below) ∨ x ∈ strands.toList ∨
      ∃ b, (c, b) ∈ strands.toList ∧ below.state = b.state ∧ x = (c, join b) := by
  have hsame : ∀ {c' : Concrete} {b : Bundle},
      (c.isSameLeaf c' && below.state == b.state) = true → c = c' ∧ below.state = b.state := by
    intro c' b h
    rw [Bool.and_eq_true, beq_iff_eq] at h
    exact ⟨Concrete.eq_of_isSameLeaf h.1, h.2⟩
  -- for the last strand and for one before others: it is the same leaf, gives way, stays alone, or
  -- the new one goes on
  fun_induction addStrand book c below join strands with
  | case1 c' b hleaf =>
    obtain ⟨rfl, hstate⟩ := hsame hleaf
    exact .inr (.inr ⟨b, by simp [Strands.toList], hstate, List.mem_singleton.1 h⟩)
  | case2 c' b => exact .inl (List.mem_singleton.1 h)
  | case3 c' b => exact .inr (.inl h)
  | case4 c' b =>
    rcases List.mem_cons.1 h with rfl | h
    · exact .inr (.inl (by simp [Strands.toList]))
    · exact .inl (List.mem_singleton.1 h)
  | case5 c' b others hleaf =>
    obtain ⟨rfl, hstate⟩ := hsame hleaf
    rcases List.mem_cons.1 h with rfl | h
    · exact .inr (.inr ⟨b, by simp [Strands.toList], hstate, rfl⟩)
    · exact .inr (.inl (List.mem_cons_of_mem _ h))
  | case6 c' b others =>
    rcases List.mem_cons.1 h with rfl | h
    · exact .inl rfl
    · exact .inr (.inl (List.mem_cons_of_mem _ h))
  | case7 c' b others => exact .inr (.inl h)
  | case8 c' b others hleaf habreast ih =>
    rcases List.mem_cons.1 h with rfl | h
    · exact .inr (.inl (by simp [Strands.toList]))
    · rcases ih h with rfl | h | ⟨d, hd, hstate, rfl⟩
      · exact .inl rfl
      · exact .inr (.inl (List.mem_cons_of_mem _ h))
      · exact .inr (.inr ⟨d, List.mem_cons_of_mem _ hd, hstate, rfl⟩)

theorem mem_strandPiles_addStrand {c : Concrete} {below : Bundle} {join : Bundle → Bundle}
    (hjoin : ∀ b, below.state = b.state → HoldsOf below b (join b)) {s : State} {p : Pile}
    {strands : Strands} (h : p ∈ strandPiles s (addStrand book c below join strands)) :
    (∃ q ∈ below.piles, ⟨c, s⟩ :: q = p) ∨ p ∈ strandPiles s strands := by
  rw [mem_strandPiles] at h ⊢
  obtain ⟨x, hx, q, hq, rfl⟩ := h
  rcases mem_addStrand hx with rfl | hx | ⟨b, hb, hstate, rfl⟩
  · exact .inl ⟨q, hq, rfl⟩
  · exact .inr ⟨x, hx, q, hq, rfl⟩
  · rcases hjoin b hstate q hq with hq | hq
    · exact .inl ⟨q, hq, rfl⟩
    · exact .inr ⟨_, hb, q, hq, rfl⟩

mutual

/-- **Joining adds no pile** to those of bundles that have reached the same state. -/
theorem holdsOf_join : ∀ {a b : Bundle}, a.state = b.state → HoldsOf a b (a.join book b)
  | .ground, _, _ => fun _ hp => .inr hp
  | .joint _ _ _, .ground, _ => fun _ hp => .inr hp
  | .joint s _ strands, .joint s' _ strands', hstate => fun p hp => by
    obtain rfl : s = s' := hstate
    exact mem_strandPiles_joinStrands strands hp

theorem mem_strandPiles_joinStrands {s : State} {p : Pile} {strands' : Strands} :
    ∀ (strands : Strands), p ∈ strandPiles s (joinStrands book strands strands') →
      p ∈ strandPiles s strands ∨ p ∈ strandPiles s strands'
  | .one c b, h => by
    refine (mem_strandPiles_addStrand (fun d hd => holdsOf_join hd) h).imp_left fun hp => ?_
    simpa [strandPiles] using hp
  | .more c b others, h => by
    rw [strandPiles, List.mem_append, List.mem_map]
    rcases mem_strandPiles_joinStrands others h with h | h
    · exact .inl (.inr h)
    · exact (mem_strandPiles_addStrand (fun d hd => holdsOf_join hd) h).imp_left .inl

end

/-- The piles of bundles with one more are its own and those of the others. -/
theorem mem_piles_of_mem_insert {b c : Bundle} {bs : List Bundle} {p : Pile}
    (h : c ∈ insert book b bs) (hp : p ∈ c.piles) : p ∈ b.piles ∨ ∃ d ∈ bs, p ∈ d.piles := by
  induction bs with
  | nil =>
    obtain rfl := List.mem_singleton.1 h
    exact .inl hp
  | cons d bs ih =>
    rw [insert] at h
    split_ifs at h with hstate
    · rcases List.mem_cons.1 h with rfl | h
      · refine (holdsOf_join (beq_iff_eq.1 hstate) p hp).imp_right fun hp => ?_
        exact ⟨d, List.mem_cons_self, hp⟩
      · exact .inr ⟨c, List.mem_cons_of_mem _ h, hp⟩
    · rcases List.mem_cons.1 h with rfl | h
      · exact .inr ⟨c, List.mem_cons_self, hp⟩
      · refine (ih h).imp_right ?_
        rintro ⟨d', hd', hp⟩
        exact ⟨d', List.mem_cons_of_mem _ hd', hp⟩

theorem mem_piles_of_mem_foldl_insert {bs cs : List Bundle} {c : Bundle} {p : Pile}
    (h : c ∈ bs.foldl (fun cs b => insert book b cs) cs) (hp : p ∈ c.piles) :
    (∃ b ∈ bs, p ∈ b.piles) ∨ ∃ d ∈ cs, p ∈ d.piles := by
  induction bs generalizing cs with
  | nil => exact .inr ⟨c, h, hp⟩
  | cons b bs ih =>
    rcases ih h with ⟨d, hd, hp⟩ | ⟨d, hd, hp⟩
    · exact .inl ⟨d, List.mem_cons_of_mem _ hd, hp⟩
    · exact (mem_piles_of_mem_insert hd hp).imp_left fun hp => ⟨b, List.mem_cons_self, hp⟩

/-! ### Putting phrases together -/

mutual

/-- Trees that come off a bundle come off one of its piles. -/
theorem exists_of_mem_pop : ∀ {n : Nat} {b : Bundle} {cs : List Concrete}
    {x : List Concrete × Bundle}, x ∈ pop n b cs → ∀ q ∈ x.2.piles,
      ∃ p ∈ b.piles, Pile.pop n p cs = (x.1, q)
  | 0, b, cs, x, h, q, hq => by
    rw [pop, List.mem_singleton] at h
    subst h
    exact ⟨q, hq, by rw [Pile.pop]⟩
  | n + 1, .ground, cs, x, h, q, hq => by
    rw [pop, List.mem_singleton] at h
    subst h
    obtain rfl := List.mem_singleton.1 hq
    exact ⟨[], List.mem_singleton.2 rfl, rfl⟩
  | n + 1, .joint s _ strands, cs, x, h, q, hq =>
    exists_of_mem_popStrands strands h q hq

theorem exists_of_mem_popStrands {s : State} : ∀ {n : Nat} (strands : Strands) {cs : List Concrete}
    {x : List Concrete × Bundle}, x ∈ popStrands n strands cs → ∀ q ∈ x.2.piles,
      ∃ p ∈ strandPiles s strands, Pile.pop (n + 1) p cs = (x.1, q)
  | n, .one c b, cs, x, h, q, hq => by
    obtain ⟨p, hp, hpop⟩ := exists_of_mem_pop h q hq
    refine ⟨⟨c, s⟩ :: p, List.mem_map_of_mem hp, ?_⟩
    rw [Pile.pop, ← hpop]
    split_ifs <;> rfl
  | n, .more c b others, cs, x, h, q, hq => by
    rcases List.mem_append.1 h with h | h
    · obtain ⟨p, hp, hpop⟩ := exists_of_mem_pop h q hq
      refine ⟨⟨c, s⟩ :: p, List.mem_append_left _ (List.mem_map_of_mem hp), ?_⟩
      rw [Pile.pop, ← hpop]
      split_ifs <;> rfl
    · obtain ⟨p, hp, hpop⟩ := exists_of_mem_popStrands others h q hq
      exact ⟨p, List.mem_append_right _ hp, hpop⟩

end

/-- **A phrase that is put together in a bundle is put together in its piles.** -/
theorem exists_reduce?_of_mem_reduce {b b' : Bundle} {byte q : Nat} {p' : Pile}
    (h : b' ∈ b.reduce book byte q) (hp : p' ∈ b'.piles) :
    ∃ p ∈ b.piles, Pile.reduce? book p q = some p' := by
  unfold reduce at h
  split at h
  · cases h
  · rename_i r hr
    obtain ⟨⟨cs, rest⟩, hpop, hsome⟩ := List.mem_filterMap.1 h
    obtain ⟨s, hs, rfl⟩ := Option.map_eq_some_iff.1 hsome
    obtain ⟨p₁, hp₁, rfl⟩ := exists_of_mem_piles_pushAll hp
    obtain ⟨q', hq', rfl⟩ := mem_piles_push.1 hp₁
    obtain ⟨p, hp, hpile⟩ := exists_of_mem_pop hpop q' hq'
    refine ⟨p, hp, ?_⟩
    rw [← state_of_mem_piles hq'] at hs
    simp only [Pile.reduce?, hr, hpile, hs, Option.bind_eq_bind, Option.bind_some, Option.pure_def]
    rfl

theorem exists_reduce?_of_mem_reduceAll {bs : List Bundle} {b' : Bundle} {byte t : Nat} {p' : Pile}
    (h : b' ∈ reduceAll book byte t bs) (hp : p' ∈ b'.piles) :
    ∃ b ∈ bs, ∃ p ∈ b.piles, ∃ q ∈ (book.moves p.state t).reductions,
      Pile.reduce? book p q = some p' := by
  rcases mem_piles_of_mem_foldl_insert h hp with ⟨c, hc, hp⟩ | ⟨c, hc, -⟩
  · obtain ⟨b, hb, hc⟩ := List.mem_flatMap.1 hc
    obtain ⟨q, hq, hc⟩ := List.mem_flatMap.1 hc
    obtain ⟨p, hp, hreduce⟩ := exists_reduce?_of_mem_reduce hc hp
    exact ⟨b, hb, p, hp, q, by rwa [state_of_mem_piles hp], hreduce⟩
  · cases hc

/-- **What takes a terminal in has been rebuilt for it.** -/
theorem exists_rebuilt_of_mem_takeIn {t front back fuel : Nat} {c : Concrete} {bs : List Bundle}
    {b' : Bundle} {p' : Pile} (h : b' ∈ takeIn book t c front back fuel bs) (hp : p' ∈ b'.piles) :
    ∃ b ∈ bs, ∃ p ∈ b.piles, ∃ q s, p.Rebuilt book t q ∧ book.next? q.state t = some s ∧
      p' = ⟨c, s⟩ :: q := by
  fun_induction takeIn book t c front back fuel bs with
  | case1 => cases h
  | case2 => cases h
  | case3 fuel bs hne ih =>
    rcases List.mem_append.1 h with h | h
    · obtain ⟨b₁, hb₁, p₁, hp₁, q, s, hrebuilt, hs, rfl⟩ := ih h
      obtain ⟨b, hb, p, hp, n, hn, hreduce⟩ := exists_reduce?_of_mem_reduceAll hb₁ hp₁
      exact ⟨b, hb, p, hp, q, s, .trans (.step .refl hn hreduce) hrebuilt, hs, rfl⟩
    · obtain ⟨b, hb, hshift⟩ := List.mem_filterMap.1 h
      unfold shift? at hshift
      dsimp only at hshift
      split_ifs at hshift
      obtain ⟨s, hs, rfl⟩ := Option.map_eq_some_iff.1 hshift
      obtain ⟨p, hbelow, rfl⟩ := mem_piles_push.1 hp
      exact ⟨b, hb, p, hbelow, p, s, .refl, by rwa [state_of_mem_piles hbelow], rfl⟩

/-- **What is complete has been rebuilt for the end.** -/
theorem exists_rebuilt_of_mem_complete {byte fuel : Nat} {bs : List Bundle} {b' : Bundle}
    {p' : Pile} (h : b' ∈ complete book byte fuel bs) (hp : p' ∈ b'.piles) :
    ∃ b ∈ bs, ∃ p ∈ b.piles, p.Rebuilt book 0 p' ∧
      (book.moves p'.state 0).accepts = true := by
  fun_induction complete book byte fuel bs with
  | case1 => cases h
  | case2 => cases h
  | case3 fuel bs hne done open' hparts ih =>
    obtain ⟨rfl, rfl⟩ := Prod.mk.inj (List.partition_eq_filter_filter.symm.trans hparts)
    rcases List.mem_append.1 h with h | h
    · obtain ⟨hb, haccepts⟩ := List.mem_filter.1 h
      exact ⟨b', hb, p', hp, .refl, by rwa [state_of_mem_piles hp]⟩
    · obtain ⟨b₁, hb₁, p₁, hp₁, hrebuilt, haccepts⟩ := ih h
      obtain ⟨b, hb, p, hp, n, hn, hreduce⟩ := exists_reduce?_of_mem_reduceAll hb₁ hp₁
      exact ⟨b, (List.mem_filter.1 hb).1, p, hp, .trans (.step .refl hn hreduce) hrebuilt, haccepts⟩

end Bundle

end DocBlocks
