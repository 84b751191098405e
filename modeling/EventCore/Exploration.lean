import Mathlib.Data.List.Nodup
import Mathlib.Data.Set.Finite.Lemmas
import Mathlib.Data.Fintype.Card

/-! Exploration of nodes that are found on the way: every visit changes a state, the state
asks for further nodes, and nodes are visited in the order in which they were first asked for. -/
namespace EventCore
namespace Exploration

section EraseDups

variable {α : Type*} [DecidableEq α]

theorem nodup_eraseDups (l : List α) : l.eraseDups.Nodup := by
  induction hn : l.length using Nat.strong_induction_on generalizing l with
  | _ n ih =>
    subst hn
    cases l with
    | nil => simp
    | cons a l =>
      rw [List.eraseDups_cons,List.nodup_cons]
      constructor
      · simp [List.mem_eraseDups]
      · exact ih _ (Nat.lt_succ_of_le (List.length_filter_le _ _)) _ rfl

theorem eraseDups_eq_self {l : List α} (h : l.Nodup) : l.eraseDups = l := by
  induction l with
  | nil => rfl
  | cons a l ih =>
    rw [List.nodup_cons] at h
    have hall : l.filter (fun b => !b == a) = l := by
      rw [List.filter_eq_self]
      intro b hb
      have hne : b ≠ a := fun heq => h.1 (heq ▸ hb)
      simpa using hne
    rw [List.eraseDups_cons,hall,ih h.2]

def fresh (listed new : List α) : List α := (new.filter (· ∉ listed)).eraseDups

theorem eraseDups_append_eq (as bs : List α) :
    (as ++ bs).eraseDups = as.eraseDups ++ fresh as.eraseDups bs := by
  rw [List.eraseDups_append,fresh,List.removeAll]
  congr 2
  refine List.filter_congr fun b _ => ?_
  by_cases h : b ∈ as <;> simp [h,List.mem_eraseDups]

end EraseDups

/-- Nodes to start from, what a visit makes of the state, and the nodes a state asks for. -/
structure Search (α β σ : Type*) where
  roots : List α
  start : σ
  absorb : σ → β → σ
  next : σ → List α

namespace Search

variable {α β σ : Type*} (x : Search α β σ)

/-- The state after some visits, each with what was found at the node. -/
def after (visits : List (α × β)) : σ := visits.foldl (fun state v => x.absorb state v.2) x.start

/-- Every node asked for, with repetitions: the roots, and then after each visit what the
state asks for. -/
def asked (visits : List (α × β)) : List α :=
  x.roots ++ visits.inits.tail.flatMap fun done => x.next (x.after done)

@[simp] theorem after_nil : x.after [] = x.start := rfl

theorem after_concat (visits : List (α × β)) (v : α × β) :
    x.after (visits ++ [v]) = x.absorb (x.after visits) v.2 := by
  simp [after]

@[simp] theorem asked_nil : x.asked [] = x.roots := by simp [asked]

theorem asked_concat (visits : List (α × β)) (v : α × β) :
    x.asked (visits ++ [v]) = x.asked visits ++ x.next (x.after (visits ++ [v])) := by
  have hinits : (visits ++ [v]).inits.tail = visits.inits.tail ++ [visits ++ [v]] := by
    cases visits <;> simp [List.inits_append]
  rw [asked,hinits,List.flatMap_append,asked,List.append_assoc]
  simp

variable [DecidableEq α]

/-- The order of visits, as far as it is known: first asked for, first visited. -/
def schedule (visits : List (α × β)) : List α := (x.asked visits).eraseDups

theorem schedule_nil : x.schedule [] = x.roots.eraseDups := by simp [schedule]

theorem schedule_concat (visits : List (α × β)) (v : α × β) :
    x.schedule (visits ++ [v]) =
      x.schedule visits ++ fresh (x.schedule visits) (x.next (x.after (visits ++ [v]))) := by
  rw [schedule,asked_concat,eraseDups_append_eq]
  rfl

theorem schedule_nodup (visits : List (α × β)) : (x.schedule visits).Nodup :=
  nodup_eraseDups _

theorem schedule_mono (visits more : List (α × β)) :
    x.schedule visits <+: x.schedule (visits ++ more) := by
  induction more using List.reverseRecOn with
  | nil => simp
  | append_singleton more v ih =>
    rw [← List.append_assoc,schedule_concat]
    exact ih.trans (List.prefix_append _ _)

/-- Every visit went to the node that was next in the schedule at that time. -/
inductive InOrder : List (α × β) → Prop
  | nil : InOrder []
  | concat {visits : List (α × β)} {a : α} (b : β) : InOrder visits →
      (x.schedule visits)[visits.length]? = some a → InOrder (visits ++ [(a,b)])

/-- An exploration that has come to its end: nothing scheduled is left. -/
structure Exhausts (visits : List (α × β)) : Prop where
  inOrder : x.InOrder visits
  nodes : visits.map Prod.fst = x.schedule visits

variable {x}

theorem InOrder.nodes {visits : List (α × β)} (h : x.InOrder visits) :
    visits.map Prod.fst <+: x.schedule visits := by
  induction h with
  | nil => simp
  | @concat visits a b _ hnext ih =>
    have hstep : visits.map Prod.fst ++ [a] <+: x.schedule visits := by
      obtain ⟨rest,hrest⟩ := ih
      rw [← hrest] at hnext ⊢
      have hlen : (visits.map Prod.fst).length ≤ visits.length := by simp
      rw [List.getElem?_append_right hlen] at hnext
      cases rest with
      | nil => simp at hnext
      | cons r rest =>
        simp only [List.length_map,Nat.sub_self,List.getElem?_cons_zero,
          Option.some.injEq] at hnext
        exact ⟨rest,by simp [hnext]⟩
    simpa using hstep.trans (x.schedule_mono visits [(a,b)])

theorem InOrder.nodup {visits : List (α × β)} (h : x.InOrder visits) :
    (visits.map Prod.fst).Nodup :=
  h.nodes.sublist.nodup (x.schedule_nodup visits)

theorem InOrder.visit {visits : List (α × β)} (h : x.InOrder visits) {a : α} {queue : List α}
    (hqueue : visits.map Prod.fst ++ a :: queue = x.schedule visits) (b : β) :
    x.InOrder (visits ++ [(a,b)]) := by
  refine .concat b h ?_
  rw [← hqueue]
  simp

theorem inOrder_concat_iff {visits : List (α × β)} {v : α × β} :
    x.InOrder (visits ++ [v]) ↔
      x.InOrder visits ∧ (x.schedule visits)[visits.length]? = some v.1 := by
  constructor
  · intro h
    generalize hlist : visits ++ [v] = list at h
    cases h with
    | nil => simp at hlist
    | concat b horder hnext =>
      obtain ⟨rfl,hv⟩ := List.append_inj' hlist rfl
      obtain rfl := List.singleton_inj.mp hv
      exact ⟨horder,hnext⟩
  · rintro ⟨horder,hnext⟩
    exact .concat v.2 horder hnext

theorem InOrder.next {done rest : List (α × β)} {v : α × β}
    (h : x.InOrder (done ++ v :: rest)) : (x.schedule done)[done.length]? = some v.1 := by
  induction rest using List.reverseRecOn with
  | nil => exact (inOrder_concat_iff.mp h).2
  | append_singleton rest w ih =>
    rw [← List.cons_append,← List.append_assoc] at h
    exact ih (inOrder_concat_iff.mp h).1

theorem InOrder.exhausts {visits : List (α × β)} (h : x.InOrder visits)
    (hlen : (x.schedule visits).length ≤ visits.length) : x.Exhausts visits :=
  ⟨h,h.nodes.eq_of_length (Nat.le_antisymm h.nodes.length_le (by simpa using hlen))⟩

theorem Exhausts.mem_of_root {visits : List (α × β)} (h : x.Exhausts visits) {a : α}
    (ha : a ∈ x.roots) : a ∈ visits.map Prod.fst := by
  rw [h.nodes,schedule,List.mem_eraseDups,asked]
  exact List.mem_append_left _ ha

section Contents

variable (x) (contents : α → β)

/-- The first visits of an exploration when `contents` is what each node holds. -/
def walk : ℕ → List (α × β)
  | 0 => []
  | n+1 => match (x.schedule (walk n))[(walk n).length]? with
    | some a => walk n ++ [(a,contents a)]
    | none => walk n

def reached : Set α := {a | ∃ n, a ∈ x.schedule (x.walk contents n)}

theorem reached_subset {nodes : Set α} (hroots : ∀ a ∈ x.roots, a ∈ nodes)
    (hnext : ∀ state, ∀ a ∈ x.next state, a ∈ nodes) : x.reached contents ⊆ nodes := by
  rintro a ⟨n,ha⟩
  rw [schedule,List.mem_eraseDups,asked] at ha
  rcases List.mem_append.mp ha with ha | ha
  · exact hroots a ha
  · obtain ⟨done,_,ha⟩ := List.mem_flatMap.mp ha
    exact hnext _ a ha

theorem walk_inOrder (n : ℕ) : x.InOrder (x.walk contents n) := by
  induction n with
  | zero => exact .nil
  | succ n ih =>
    unfold walk
    cases hnext : (x.schedule (x.walk contents n))[(x.walk contents n).length]? with
    | none => exact ih
    | some a => exact .concat _ ih hnext

theorem walk_contents (n : ℕ) : ∀ v ∈ x.walk contents n, v.2 = contents v.1 := by
  induction n with
  | zero => simp [walk]
  | succ n ih =>
    unfold walk
    split
    · intro v hv
      rcases List.mem_append.mp hv with hv | hv
      · exact ih v hv
      · rw [List.mem_singleton.mp hv]
    · exact ih

theorem walk_length_or_exhausts (n : ℕ) :
    (x.walk contents n).length = n ∨ x.Exhausts (x.walk contents n) := by
  induction n with
  | zero => exact .inl rfl
  | succ n ih =>
    unfold walk
    cases hnext : (x.schedule (x.walk contents n))[(x.walk contents n).length]? with
    | none =>
      right
      exact (x.walk_inOrder contents n).exhausts (List.getElem?_eq_none_iff.mp hnext)
    | some a =>
      rcases ih with hlen | hend
      · exact .inl (by simp [hlen])
      · have hall : (x.schedule (x.walk contents n)).length = (x.walk contents n).length := by
          rw [← hend.nodes,List.length_map]
        rw [List.getElem?_eq_none hall.le] at hnext
        cases hnext

variable {contents}

theorem exists_exhausts (hfin : (x.reached contents).Finite) :
    ∃ n, x.Exhausts (x.walk contents n) := by
  by_contra hnone
  have hnone' : ∀ n, ¬x.Exhausts (x.walk contents n) := fun n h => hnone ⟨n,h⟩
  obtain ⟨nodes,hnodes⟩ := hfin.exists_finset_coe
  have hlen : (x.walk contents (nodes.card+1)).length = nodes.card+1 :=
    (x.walk_length_or_exhausts contents _).resolve_right (hnone' _)
  have horder := x.walk_inOrder contents (nodes.card+1)
  have hsub : ((x.walk contents (nodes.card+1)).map Prod.fst).toFinset ⊆ nodes := by
    intro a ha
    rw [← Finset.mem_coe,hnodes]
    exact ⟨nodes.card+1,horder.nodes.subset (List.mem_toFinset.mp ha)⟩
  have hcard := Finset.card_le_card hsub
  rw [List.toFinset_card_of_nodup horder.nodup,List.length_map,hlen] at hcard
  omega

theorem walk_length_of_next {n : ℕ} {a : α}
    (hnext : (x.schedule (x.walk contents n))[(x.walk contents n).length]? = some a) :
    (x.walk contents n).length = n := by
  refine (x.walk_length_or_exhausts contents n).resolve_right fun hend => ?_
  rw [← hend.nodes,List.getElem?_eq_none (by simp)] at hnext
  cases hnext

variable {x}

theorem walk_before {n : ℕ} {done rest : List α} {a : α}
    (h : (x.walk contents n).map Prod.fst = done ++ a :: rest) :
    x.walk contents done.length = done.map (fun b => (b,contents b)) ∧
    (x.schedule (x.walk contents done.length))[done.length]? = some a := by
  induction n generalizing rest with
  | zero => simp [walk] at h
  | succ n ih =>
    unfold walk at h
    split at h
    · next b hnext =>
      rw [List.map_append] at h
      rcases List.eq_nil_or_concat rest with rfl | ⟨rest',c,rfl⟩
      · obtain ⟨hdone,hb⟩ := List.append_inj' h rfl
        have hlen : done.length = n := by
          rw [← hdone,List.length_map]
          exact x.walk_length_of_next hnext
        have hwalk : x.walk contents n = done.map fun b => (b,contents b) := by
          rw [← hdone,List.map_map,List.map_congr_left (g := id),List.map_id]
          intro v hv
          exact Prod.ext rfl (x.walk_contents contents n v hv).symm
        rw [hlen]
        refine ⟨hwalk,?_⟩
        rw [x.walk_length_of_next hnext] at hnext
        simpa [hnext] using hb
      · rw [List.concat_eq_append,← List.cons_append,← List.append_assoc] at h
        exact ih (List.append_inj' h rfl).1
    · exact ih h

/-- An exploration of `contents` is one of its walks. -/
theorem InOrder.eq_walk {visits : List (α × β)} (h : x.InOrder visits)
    (hcontents : ∀ v ∈ visits, v.2 = contents v.1) : visits = x.walk contents visits.length := by
  induction h with
  | nil => rfl
  | @concat visits a b _ hnext ih =>
    have hprev := ih fun v hv => hcontents v (List.mem_append_left _ hv)
    have hb : b = contents a := hcontents (a,b) (by simp)
    rw [List.length_append,List.length_singleton,walk,← hprev,hnext,hb]

theorem Exhausts.mem_iff {visits : List (α × β)} (h : x.Exhausts visits)
    (hcontents : ∀ v ∈ visits, v.2 = contents v.1) (a : α) :
    a ∈ visits.map Prod.fst ↔ a ∈ x.reached contents := by
  have hwalk := h.inOrder.eq_walk hcontents
  have hstay : ∀ n, visits.length ≤ n → x.walk contents n = visits := by
    intro n hn
    induction n, hn using Nat.le_induction with
    | base => exact hwalk.symm
    | succ n _ ih =>
      have hnone : (x.schedule visits)[visits.length]? = none := by
        rw [← h.nodes]
        simp
      rw [walk,ih,hnone]
  have hgrow : ∀ m n, x.schedule (x.walk contents m) <+: x.schedule (x.walk contents (m+n)) := by
    intro m n
    induction n with
    | zero => exact List.prefix_rfl
    | succ n ih =>
      refine ih.trans ?_
      rw [← Nat.add_assoc,walk]
      split
      · exact x.schedule_mono _ _
      · exact List.prefix_rfl
  constructor
  · intro ha
    exact ⟨visits.length,hwalk ▸ h.nodes ▸ ha⟩
  · rintro ⟨n,hn⟩
    have hlast := (hgrow n visits.length).subset hn
    rw [hstay _ (Nat.le_add_left _ _)] at hlast
    exact h.nodes ▸ hlast

variable (x contents) in
theorem walk_mono {m n : ℕ} (hmn : m ≤ n) : x.walk contents m <+: x.walk contents n := by
  induction n, hmn using Nat.le_induction with
  | base => exact List.prefix_rfl
  | succ n _ ih =>
    refine ih.trans ?_
    rw [walk]
    split
    · exact List.prefix_append _ _
    · exact List.prefix_rfl

section Blank

variable {full : Finset α}

omit [DecidableEq α] in
/-- Nodes outside `full` leave every state as it is. -/
theorem after_append_blank (hblank : ∀ a ∉ full, ∀ state, x.absorb state (contents a) = state)
    (visits : List (α × β)) {rest : List (α × β)}
    (hrest : ∀ v ∈ rest, v.1 ∉ full ∧ v.2 = contents v.1) :
    x.after (visits ++ rest) = x.after visits := by
  induction rest using List.reverseRecOn with
  | nil => rw [List.append_nil]
  | append_singleton rest v ih =>
    obtain ⟨hfull,hcontents⟩ := hrest v (by simp)
    rw [← List.append_assoc,after_concat,hcontents,hblank v.1 hfull]
    exact ih fun w hw => hrest w (by simp [hw])

omit [DecidableEq α] in
theorem asked_append_blank (hblank : ∀ a ∉ full, ∀ state, x.absorb state (contents a) = state)
    {visits rest : List (α × β)} (hrest : ∀ v ∈ rest, v.1 ∉ full ∧ v.2 = contents v.1) {a : α}
    (ha : a ∈ x.asked (visits ++ rest)) : a ∈ x.asked visits ∨ a ∈ x.next (x.after visits) := by
  induction rest using List.reverseRecOn with
  | nil => exact .inl (by simpa using ha)
  | append_singleton rest v ih =>
    rw [← List.append_assoc,asked_concat] at ha
    rcases List.mem_append.mp ha with ha | ha
    · exact ih (fun w hw => hrest w (by simp [hw])) ha
    · right
      rwa [List.append_assoc,after_append_blank hblank visits hrest] at ha

theorem exists_largest {f : ℕ → ℕ} {bound : ℕ} (hbound : ∀ n, f n ≤ bound) :
    ∃ N, ∀ n, f n ≤ f N := by
  have hfinite : (Set.range f).Finite :=
    (Set.finite_le_nat bound).subset (Set.range_subset_iff.mpr hbound)
  obtain ⟨_,⟨N,rfl⟩,hN⟩ := Set.exists_max_image _ id hfinite (Set.range_nonempty f)
  exact ⟨N,fun n => hN _ (Set.mem_range_self n)⟩

variable (x contents) in
/-- A walk comes to a point from which it only finds nodes outside `full`. -/
theorem exists_only_blank (full : Finset α) :
    ∃ N, ∀ n, N ≤ n → ∃ rest, x.walk contents n = x.walk contents N ++ rest ∧
      ∀ v ∈ rest, v.1 ∉ full := by
  have hbound : ∀ n, ((x.walk contents n).filter (·.1 ∈ full)).length ≤ full.card := by
    intro n
    have hnodup := (x.walk_inOrder contents n).nodup
    have hsub : ((x.walk contents n).filter (·.1 ∈ full)).map Prod.fst ⊆ full.toList := by
      intro a ha
      obtain ⟨v,hv,rfl⟩ := List.mem_map.mp ha
      exact Finset.mem_toList.mpr (by simpa using (List.mem_filter.mp hv).2)
    have hle := ((hnodup.sublist (List.filter_sublist.map Prod.fst)).subperm hsub).length_le
    rwa [List.length_map,Finset.length_toList] at hle
  obtain ⟨N,hN⟩ := exists_largest hbound
  refine ⟨N,fun n hn => ?_⟩
  obtain ⟨rest,hrest⟩ := x.walk_mono contents hn
  refine ⟨rest,hrest.symm,fun v hv hfull => ?_⟩
  have hmem : v ∈ rest.filter (·.1 ∈ full) := List.mem_filter.mpr ⟨hv,by simpa using hfull⟩
  have hpos := List.length_pos_of_mem hmem
  have hle := hN n
  rw [← hrest,List.filter_append,List.length_append] at hle
  omega

/-- When only finitely many nodes hold anything that changes a state, only finitely many are
reached, whatever the states ask for. -/
theorem reached_finite (hblank : ∀ a ∉ full, ∀ state, x.absorb state (contents a) = state) :
    (x.reached contents).Finite := by
  obtain ⟨N,hN⟩ := x.exists_only_blank contents full
  refine Set.Finite.subset
    (x.asked (x.walk contents N) ++ x.next (x.after (x.walk contents N))).finite_toSet ?_
  rintro a ⟨n,ha⟩
  have hlater : a ∈ x.schedule (x.walk contents (max n N)) := by
    obtain ⟨rest,hrest⟩ := x.walk_mono contents (le_max_left n N)
    rw [← hrest]
    exact (x.schedule_mono _ _).subset ha
  obtain ⟨rest,hrest,hfull⟩ := hN _ (le_max_right n N)
  have hcontents : ∀ v ∈ rest, v.1 ∉ full ∧ v.2 = contents v.1 := fun v hv =>
    ⟨hfull v hv,x.walk_contents contents _ v (hrest ▸ List.mem_append_right _ hv)⟩
  rw [hrest,schedule,List.mem_eraseDups] at hlater
  exact List.mem_append.mpr (asked_append_blank hblank hcontents hlater)

end Blank

end Contents

end Search

end Exploration
end EventCore
