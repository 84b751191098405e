import Mathlib.Data.List.Nodup

/-! A growing source that is folded by a reader which loses its place: it goes on from an earlier
point of what it has read, and folds some of it again. An idempotent fold comes out the same once
the reader has caught up. -/
namespace EventCore
namespace Replays

variable {α σ : Type*}

def Idempotent (step : σ → α → σ) : Prop :=
  ∀ (l : List α) (s : σ), l.foldl step (l.foldl step s) = l.foldl step s

theorem Idempotent.of_comm {step : σ → α → σ}
    (hcomm : ∀ s a b, step (step s a) b = step (step s b) a)
    (hagain : ∀ s a, step (step s a) a = step s a) : Idempotent step := by
  have hinward : ∀ (l : List α) (s : σ) (a : α),
      step (l.foldl step s) a = l.foldl step (step s a) := by
    intro l
    induction l with
    | nil => exact fun s a => rfl
    | cons b l ih =>
      intro s a
      rw [List.foldl_cons,ih,hcomm,List.foldl_cons]
  intro l
  induction l with
  | nil => exact fun s => rfl
  | cons a l ih =>
    intro s
    rw [List.foldl_cons,List.foldl_cons,hinward,hagain,ih]

/-- The reader starts after `done`, with all of `before` folded already. Once it has read up to
where it was before, its fold is that of the source. -/
structure Replay (step : σ → α → σ) (s : σ) (source before done : List α) : Prop where
  drawn : before ⊆ source
  within : done <+: source
  catchesUp : ∀ l, done ++ l <+: source → before ⊆ done ++ l →
    (before ++ l).foldl step s = (done ++ l).foldl step s

variable {step : σ → α → σ} {s : σ} {source before done : List α}

theorem Replay.nil (step : σ → α → σ) (s : σ) (source : List α) : Replay step s source [] [] where
  drawn := List.nil_subset _
  within := List.nil_prefix
  catchesUp _ _ _ := rfl

/-- A prefix of an extended list is one of the list itself, or goes on behind it. -/
theorem prefix_append_cases {l source more : List α} (h : l <+: source ++ more) :
    l <+: source ∨ ∃ rest, l = source ++ rest := by
  rcases List.prefix_or_prefix_of_prefix h (List.prefix_append source more) with h | ⟨rest,hrest⟩
  · exact .inl h
  · exact .inr ⟨rest,hrest.symm⟩

theorem Replay.grow (h : Replay step s source before done) (more : List α) :
    Replay step s (source ++ more) before done where
  drawn := List.subset_append_of_subset_left _ h.drawn
  within := h.within.trans (List.prefix_append _ _)
  catchesUp l hl hbefore := by
    rcases prefix_append_cases hl with hl | ⟨rest,hrest⟩
    · exact h.catchesUp l hl hbefore
    · obtain ⟨first,hfirst⟩ := h.within
      have hsplit : l = first ++ rest := by
        rw [← hfirst,List.append_assoc] at hrest
        exact List.append_cancel_left hrest
      have hwhole : before ⊆ done ++ first := hfirst ▸ h.drawn
      have hcaught := h.catchesUp first (hfirst ▸ List.prefix_rfl) hwhole
      rw [hsplit,← List.append_assoc,← List.append_assoc,List.foldl_append,hcaught,
        ← List.foldl_append]

/-- A reader that starts over after `kept` reads again what it has read since. -/
theorem Replay.restart (hstep : Idempotent step) (hsource : source.Nodup)
    (h : Replay step s source before done) {kept lost : List α}
    (hread : done ++ (kept ++ lost) <+: source) :
    Replay step s source (before ++ (kept ++ lost)) (done ++ kept) where
  drawn := by
    refine List.append_subset_of_subset_of_subset h.drawn ?_
    exact fun a ha => hread.subset (List.mem_append_right _ ha)
  within := by
    refine List.IsPrefix.trans ?_ hread
    rw [← List.append_assoc]
    exact List.prefix_append _ _
  catchesUp l hl hbefore := by
    -- the reader comes to the end of what it lost before it can have caught up
    obtain ⟨rest,rfl⟩ : lost <+: l := by
      rw [← List.append_assoc] at hread
      rcases List.prefix_or_prefix_of_prefix hread hl with hlost | hlost
      · exact (List.prefix_append_right_inj _).mp hlost
      · obtain ⟨ahead,rfl⟩ := (List.prefix_append_right_inj _).mp hlost
        have hnodup := hsource.sublist hread.sublist
        rw [← List.append_assoc] at hnodup
        cases ahead with
        | nil => exact ⟨[],by simp⟩
        | cons a ahead =>
          have ha : a ∈ done ++ kept ++ l := hbefore (by simp)
          exact absurd (List.mem_cons_self) (List.disjoint_of_nodup_append hnodup ha)
    have hcovers : before ⊆ done ++ (kept ++ (lost ++ rest)) := by
      intro a ha
      have hmem := hbefore (List.mem_append_left _ ha)
      rwa [List.append_assoc] at hmem
    rw [List.append_assoc] at hl
    rw [List.append_assoc done,← h.catchesUp _ hl hcovers]
    simp only [List.foldl_append]
    rw [hstep]

end Replays
end EventCore
