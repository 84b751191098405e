import Mathlib.Data.List.Dedup
import Mathlib.Data.List.Sort

/-! Values collected per key in an ordered map, where the keys ascend and the values of one
key stand in arrival order, and lists sorted by a key. -/
namespace EventCore
namespace Grouping

variable {K V : Type*} [LinearOrder K]

def values (entries : List (K × V)) (k : K) : List V :=
  (entries.filter fun e => e.1 = k).map Prod.snd

def group (entries : List (K × V)) : List (K × List V) :=
  ((entries.map Prod.fst).dedup.insertionSort (· ≤ ·)).map fun k => (k,values entries k)

@[simp] theorem mem_values {entries : List (K × V)} {k : K} {v : V} :
    v ∈ values entries k ↔ (k,v) ∈ entries := by
  simp [values]

theorem mem_group {entries : List (K × V)} {k : K} {vs : List V} :
    (k,vs) ∈ group entries ↔ vs = values entries k ∧ ∃ v, (k,v) ∈ entries := by
  simp only [group,List.mem_map,List.mem_insertionSort,List.mem_dedup,Prod.mk.injEq]
  constructor
  · rintro ⟨k',⟨⟨_,v⟩,hv,rfl⟩,rfl,rfl⟩
    exact ⟨rfl,v,hv⟩
  · rintro ⟨rfl,v,hv⟩
    exact ⟨k,⟨(k,v),hv,rfl⟩,rfl,rfl⟩

theorem group_keys_nodup (entries : List (K × V)) : ((group entries).map Prod.fst).Nodup := by
  have hkeys : (group entries).map Prod.fst =
      (entries.map Prod.fst).dedup.insertionSort (· ≤ ·) := by
    simp [group,List.map_map,Function.comp_def]
  rw [hkeys]
  exact ((List.perm_insertionSort _ _).nodup_iff).mpr (List.nodup_dedup _)

/-- A relation holds in list order within every group exactly when it holds in list order between
entries of one key. -/
theorem forall_group_pairwise {entries : List (K × V)} {R : V → V → Prop} :
    (∀ g ∈ group entries, g.2.Pairwise R) ↔
      entries.Pairwise fun p q => p.1 = q.1 → R p.2 q.2 := by
  have hvalues : ∀ k, (values entries k).Pairwise R ↔
      entries.Pairwise fun p q => p.1 = k → q.1 = k → R p.2 q.2 := by
    intro k
    simp only [values,List.pairwise_map,List.pairwise_filter,decide_eq_true_eq]
  constructor
  · intro hall
    refine List.pairwise_iff_forall_sublist.mpr fun {p q} hpq hkey => ?_
    have hp : p ∈ entries := hpq.subset List.mem_cons_self
    have hg := (hvalues p.1).mp (hall _ (mem_group.mpr ⟨rfl,p.2,hp⟩))
    exact List.pairwise_iff_forall_sublist.mp hg hpq rfl hkey.symm
  · rintro hall ⟨k,vs⟩ hg
    obtain ⟨rfl,_⟩ := mem_group.mp hg
    exact (hvalues k).mpr (hall.imp fun h hp hq => h (hp.trans hq.symm))

theorem values_nodup {entries : List (K × V)} (h : entries.Nodup) (k : K) :
    (values entries k).Nodup := by
  refine List.Nodup.map_on ?_ (h.filter _)
  rintro ⟨k₁,v₁⟩ h₁ ⟨k₂,v₂⟩ h₂ hv
  simp only [List.mem_filter,decide_eq_true_eq] at h₁ h₂
  exact Prod.ext (h₁.2.trans h₂.2.symm) hv

section SortBy

variable {α : Type*} (key : α → K)

theorem pairwise_sortBy (l : List α) :
    (l.insertionSort fun a b => key a ≤ key b).Pairwise fun a b => key a ≤ key b := by
  have htotal : Std.Total fun a b : α => key a ≤ key b := ⟨fun _ _ => le_total _ _⟩
  have htrans : IsTrans α fun a b => key a ≤ key b := ⟨fun _ _ _ => le_trans⟩
  exact List.pairwise_insertionSort _ l

variable {key}

theorem pairwise_lt_sortBy {l : List α} (hnodup : (l.map key).Nodup) :
    (l.insertionSort fun a b => key a ≤ key b).Pairwise fun a b => key a < key b := by
  have hperm := List.perm_insertionSort (fun a b => key a ≤ key b) l
  have hne : (l.insertionSort fun a b => key a ≤ key b).Pairwise fun a b => key a ≠ key b :=
    List.pairwise_map.mp ((hperm.map key).nodup_iff.mpr hnodup)
  exact (pairwise_sortBy key l).imp₂ (fun _ _ hle hne => lt_of_le_of_ne hle hne) hne

theorem sortBy_eq {l l' : List α} (hperm : l'.Perm l)
    (hsorted : l'.Pairwise fun a b => key a < key b) :
    (l.insertionSort fun a b => key a ≤ key b) = l' := by
  have hne : (l'.map key).Nodup := List.pairwise_map.mpr (hsorted.imp fun h => h.ne)
  have hstrict := pairwise_lt_sortBy ((hperm.map key).nodup_iff.mp hne)
  exact List.Perm.eq_of_pairwise (fun a b _ _ hab hba => absurd (hab.trans hba) (lt_irrefl _))
    hstrict hsorted ((List.perm_insertionSort _ l).trans hperm.symm)

theorem filter_sortBy {l : List α} (hnodup : (l.map key).Nodup) (p : α → Bool) :
    ((l.filter p).insertionSort fun a b => key a ≤ key b) =
      (l.insertionSort fun a b => key a ≤ key b).filter p :=
  sortBy_eq ((List.perm_insertionSort _ l).filter p)
    ((pairwise_lt_sortBy hnodup).sublist List.filter_sublist)

theorem sortBy_concat {l : List α} {a : α} (hnodup : ((l ++ [a]).map key).Nodup) :
    ∃ before after, (before ++ after).Perm l ∧
      ((l ++ [a]).insertionSort fun b c => key b ≤ key c) = before ++ a :: after ∧
      (before ++ after).Pairwise (fun b c => key b < key c) ∧
      (∀ b ∈ before, key b < key a) ∧ ∀ b ∈ after, key a < key b := by
  have hperm := List.perm_insertionSort (fun b c => key b ≤ key c) (l ++ [a])
  have hsorted := pairwise_lt_sortBy hnodup
  obtain ⟨before,after,hsplit⟩ := List.append_of_mem (hperm.mem_iff.mpr (by simp : a ∈ l ++ [a]))
  rw [hsplit] at hperm hsorted
  have hmiddle : (before ++ a :: after).Perm (a :: (before ++ after)) := List.perm_middle
  have hend : (l ++ [a]).Perm (a :: l) := List.perm_append_singleton a l
  have hbefore := List.pairwise_append.mp hsorted
  refine ⟨before,after,(hmiddle.symm.trans (hperm.trans hend)).cons_inv,hsplit,?_,?_,?_⟩
  · exact hsorted.sublist ((List.sublist_cons_self a after).append_left before)
  · exact fun b hb => hbefore.2.2 b hb a List.mem_cons_self
  · exact (List.pairwise_cons.mp hbefore.2.1).1

theorem sortBy_append {l l' : List α} (hnodup : ((l ++ l').map key).Nodup)
    (h : ∀ a ∈ l, ∀ b ∈ l', key a < key b) : ((l ++ l').insertionSort fun a b => key a ≤ key b) =
      (l.insertionSort fun a b => key a ≤ key b) ++ l'.insertionSort fun a b => key a ≤ key b := by
  rw [List.map_append,List.nodup_append] at hnodup
  refine sortBy_eq ((List.perm_insertionSort _ l).append (List.perm_insertionSort _ l')) ?_
  refine List.pairwise_append.mpr
    ⟨pairwise_lt_sortBy hnodup.1,pairwise_lt_sortBy hnodup.2.1,fun a ha b hb => ?_⟩
  exact h a ((List.mem_insertionSort _).mp ha) b ((List.mem_insertionSort _).mp hb)

section Parts

variable {β : Type*} {f : α → List β}

theorem flatMap_filter_ne_nil (l : List α) :
    (l.filter fun a => !(f a).isEmpty).flatMap f = l.flatMap f := by
  induction l with
  | nil => rfl
  | cons a l ih =>
    rw [List.filter_cons,List.flatMap_cons]
    cases hfa : f a with
    | nil => simpa using ih
    | cons b bs => simp [hfa,ih]

/-- Nothing goes in front of what the first elements are made of if the new ones that are made of
something have larger keys. -/
theorem flatMap_sortBy_begins {l more : List α} (hnodup : ((l ++ more).map key).Nodup)
    (h : ∀ a ∈ more, f a ≠ [] → ∀ b ∈ l, f b ≠ [] → key b < key a) :
    (l.insertionSort fun a b => key a ≤ key b).flatMap f <+:
      ((l ++ more).insertionSort fun a b => key a ≤ key b).flatMap f := by
  have hl : (l.map key).Nodup := by
    rw [List.map_append] at hnodup
    exact hnodup.of_append_left
  rw [← flatMap_filter_ne_nil (l.insertionSort _),← filter_sortBy hl,
    ← flatMap_filter_ne_nil ((l ++ more).insertionSort _),← filter_sortBy hnodup,
    List.filter_append,sortBy_append,List.flatMap_append]
  · exact List.prefix_append _ _
  · rw [← List.filter_append]
    exact hnodup.sublist (List.filter_sublist.map key)
  · intro b hb a ha
    obtain ⟨hb,hfb⟩ := List.mem_filter.mp hb
    obtain ⟨ha,hfa⟩ := List.mem_filter.mp ha
    exact h a ha (by simpa using hfa) b hb (by simpa using hfb)

theorem flatMap_sortBy_begins_iff {l more : List α} (hnodup : ((l ++ more).map key).Nodup)
    (hparts : ((l ++ more).flatMap f).Nodup) :
    (l.insertionSort fun a b => key a ≤ key b).flatMap f <+:
      ((l ++ more).insertionSort fun a b => key a ≤ key b).flatMap f ↔
    ∀ a ∈ more, f a ≠ [] → ∀ b ∈ l, f b ≠ [] → key b < key a := by
  refine ⟨?_,flatMap_sortBy_begins hnodup⟩
  rintro ⟨rest,hrest⟩ a ha hfa b hb hfb
  have hperm := List.perm_insertionSort (fun a b => key a ≤ key b) (l ++ more)
  have hold : ∀ x, x ∈ (l.insertionSort fun a b => key a ≤ key b).flatMap f ↔ x ∈ l.flatMap f :=
    fun x => ((List.perm_insertionSort _ l).flatMap_right f).mem_iff
  have hdistinct := (hperm.flatMap_right f).nodup_iff.mpr hparts
  rw [← hrest,List.nodup_append] at hdistinct
  -- whatever precedes a part of an old element is part of one
  have hpair : (((l ++ more).insertionSort fun a b => key a ≤ key b).flatMap f).Pairwise
      fun x y => y ∈ l.flatMap f → x ∈ l.flatMap f := by
    rw [← hrest]
    refine List.pairwise_append.mpr ⟨?_,?_,?_⟩
    · exact List.pairwise_of_forall_mem_list fun x hx _ _ _ => (hold x).mp hx
    · refine List.pairwise_of_forall_mem_list fun x _ y hy hmem => ?_
      exact absurd rfl (hdistinct.2.2 y ((hold y).mpr hmem) y hy)
    · exact fun x hx _ _ _ => (hold x).mp hx
  obtain ⟨before,after,hsplit⟩ :=
    List.append_of_mem (hperm.mem_iff.mpr (List.mem_append_right l ha))
  have hsorted := pairwise_lt_sortBy hnodup
  have hparts' := (List.pairwise_flatMap.mp hpair).2
  have hb' := hperm.mem_iff.mpr (List.mem_append_left more hb)
  rw [hsplit] at hsorted hparts' hb'
  have hnew : ∀ x ∈ f a, x ∉ l.flatMap f := by
    intro x hx hmem
    rw [List.flatMap_append,List.nodup_append] at hparts
    exact hparts.2.2 x hmem x (List.mem_flatMap.mpr ⟨a,ha,hx⟩) rfl
  rcases List.mem_append.mp hb' with hbefore | hafter
  · exact (List.pairwise_append.mp hsorted).2.2 b hbefore a List.mem_cons_self
  · obtain ⟨x,hx⟩ := List.exists_mem_of_ne_nil _ hfa
    obtain ⟨y,hy⟩ := List.exists_mem_of_ne_nil _ hfb
    have hy' : y ∈ l.flatMap f := List.mem_flatMap.mpr ⟨b,hb,hy⟩
    rcases List.mem_cons.mp hafter with rfl | hafter
    · exact absurd hy' (hnew y hy)
    · have hcross := (List.pairwise_cons.mp (List.pairwise_append.mp hparts').2.1).1 b hafter
      exact absurd (hcross x hx y hy hy') (hnew x hx)

end Parts

end SortBy

section Append

variable {α : Type} (r : α → α → Prop) [DecidableRel r]

theorem orderedInsert_append {a : α} {l l' : List α} (h : ∀ b ∈ l', r a b) :
    (l ++ l').orderedInsert r a = l.orderedInsert r a ++ l' := by
  induction l with
  | nil =>
    cases l' with
    | nil => rfl
    | cons b l' =>
      have hab := h b List.mem_cons_self
      simp [hab]
  | cons b l ih =>
    by_cases hab : r a b
    · simp [hab]
    · simp [hab,ih]

theorem append_eq_insert_iff {l before middle after : List α} (p : α → Bool)
    (hl : ∀ a ∈ l, p a = true) (hbefore : ∀ a ∈ before, p a = true)
    (hmiddle : ∀ a ∈ middle, p a = false) (hafter : ∀ a ∈ after, p a = true) :
    l ++ middle = before ++ middle ++ after ↔
      l = before ++ after ∧ (middle = [] ∨ after = []) := by
  have hkept : ∀ l : List α, (∀ a ∈ l, p a = true) → l.filter p = l :=
    fun l hl => List.filter_eq_self.mpr hl
  constructor
  · intro heq
    have hnone : middle.filter p = [] := by
      rw [List.filter_eq_nil_iff]
      intro a ha
      simp [hmiddle a ha]
    have hsame := congrArg (List.filter p) heq
    simp only [List.filter_append,hnone,hkept l hl,hkept before hbefore,hkept after hafter,
      List.append_nil] at hsame
    refine ⟨hsame,?_⟩
    rw [hsame,List.append_assoc,List.append_assoc] at heq
    have hswap := List.append_cancel_left heq
    cases hm : middle with
    | nil => exact .inl rfl
    | cons a middle' =>
      cases ha : after with
      | nil => exact .inr rfl
      | cons b after' =>
        rw [hm,ha] at hswap
        have hhead : b = a := (List.cons.inj hswap).1
        have hpa := hmiddle a (hm ▸ List.mem_cons_self)
        rw [← hhead,hafter b (ha ▸ List.mem_cons_self)] at hpa
        cases hpa
  · rintro ⟨rfl,rfl | rfl⟩
    · simp
    · simp

theorem insertionSort_append {l l' : List α} (hrel : ∀ a ∈ l, ∀ b ∈ l', r a b)
    (hsorted : l'.Pairwise r) : (l ++ l').insertionSort r = l.insertionSort r ++ l' := by
  induction l with
  | nil => exact hsorted.insertionSort_eq
  | cons a l ih =>
    have htail := ih fun b hb => hrel b (List.mem_cons_of_mem _ hb)
    rw [List.cons_append,List.insertionSort_cons,htail,List.insertionSort_cons,
      orderedInsert_append r (hrel a List.mem_cons_self)]

end Append

end Grouping
end EventCore
