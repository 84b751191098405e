import Mathlib.Data.Finset.Card
import Mathlib.Data.Finset.Max
import Mathlib.Logic.Relation

/-! Depth-first search with an explicit stack over a successor function, and the
ancestor relation it decides. Nothing here assumes that the graph is acyclic,
that successors are distinct, or that every successor has successors itself. -/
namespace EventCore
namespace GraphSearch

variable {α : Type*}

/-- `a` is met by a nonempty path of successor links that starts at `d`. -/
def Ancestor (succ : α → List α) (a d : α) : Prop :=
  Relation.TransGen (fun x y => y ∈ succ x) d a

/-- `a` is `d` itself or one of its ancestors. -/
def AncestorOrSelf (succ : α → List α) (a d : α) : Prop :=
  a = d ∨ Ancestor succ a d

theorem Ancestor.link {succ : α → List α} {a d : α} (h : a ∈ succ d) : Ancestor succ a d :=
  Relation.TransGen.single h

theorem Ancestor.trans {succ : α → List α} {a b c : α}
    (hab : Ancestor succ a b) (hbc : Ancestor succ b c) : Ancestor succ a c :=
  Relation.TransGen.trans hbc hab

theorem ancestor_iff_link {succ : α → List α} {a d : α} :
    Ancestor succ a d ↔ ∃ p ∈ succ d, AncestorOrSelf succ a p := by
  constructor
  · intro h
    rcases Relation.TransGen.head'_iff.mp h with ⟨p,hp,hpa⟩
    refine ⟨p,hp,?_⟩
    rcases Relation.reflTransGen_iff_eq_or_transGen.mp hpa with rfl | h
    · exact .inl rfl
    · exact .inr h
  · rintro ⟨p,hp,rfl | h⟩
    · exact .link hp
    · exact h.trans (.link hp)

theorem Ancestor.trans_self {succ : α → List α} {a b c : α}
    (hab : AncestorOrSelf succ a b) (hbc : Ancestor succ b c) : Ancestor succ a c := by
  rcases hab with rfl | hab
  · exact hbc
  · exact hab.trans hbc

theorem Ancestor.rank_lt {succ : α → List α} {rank : α → ℕ}
    (hrank : ∀ x y, y ∈ succ x → rank y < rank x) {a d : α}
    (h : Ancestor succ a d) : rank a < rank d := by
  induction h with
  | single h => exact hrank _ _ h
  | tail _ h ih => exact (hrank _ _ h).trans ih

theorem not_transGen_self {r : α → α → Prop} {a : α} (h : Acc r a) : ¬ Relation.TransGen r a a := by
  have hacc := h.transGen
  induction hacc with
  | intro a _ ih => exact fun hself => ih a hself h hself

theorem exists_rank {succ : α → List α} (hacyclic : ∀ a, ¬ Ancestor succ a a) (nodes : Finset α) :
    ∃ rank : α → ℕ, (∀ x y, y ∈ succ x → y ∈ nodes → rank y < rank x) ∧
      ∀ x ∈ nodes, rank x < nodes.card := by
  classical
  refine ⟨fun x => (nodes.filter fun a => Ancestor succ a x).card,fun x y hlink hy => ?_,
    fun x hx => ?_⟩
  · refine Finset.card_lt_card (Finset.ssubset_iff_of_subset ?_ |>.mpr ⟨y,?_,?_⟩)
    · intro a ha
      rw [Finset.mem_filter] at ha ⊢
      exact ⟨ha.1,ha.2.trans (.link hlink)⟩
    · exact Finset.mem_filter.mpr ⟨hy,.link hlink⟩
    · exact fun hmem => hacyclic y (Finset.mem_filter.mp hmem).2
  · refine Finset.card_lt_card (Finset.ssubset_iff_of_subset (Finset.filter_subset _ _) |>.mpr
      ⟨x,hx,?_⟩)
    exact fun hmem => hacyclic x (Finset.mem_filter.mp hmem).2

/-- Links only lead into `P`, so every ancestor lies in `P`. -/
theorem Ancestor.mem {succ : α → List α} {P : α → Prop}
    (hP : ∀ x y, y ∈ succ x → P y) {a d : α} (h : Ancestor succ a d) : P a := by
  cases h with
  | single h => exact hP _ _ h
  | tail _ h => exact hP _ _ h

/-- Ancestors stay ancestors under another successor function that agrees on a set which the first
one does not leave. -/
theorem Ancestor.of_agree {succ succ' : α → List α} {P : α → Prop}
    (hclosed : ∀ x y, P x → y ∈ succ x → P y) (hagree : ∀ x, P x → succ' x = succ x)
    {a d : α} (hd : P d) (h : Ancestor succ a d) : Ancestor succ' a d := by
  induction h using Relation.TransGen.head_induction_on with
  | single h => exact .link ((hagree _ hd).symm ▸ h)
  | @head x y h _ ih => exact (ih (hclosed x y hd h)).trans (.link ((hagree x hd).symm ▸ h))

/-- Two successor functions that agree on a set which is closed under the first one have the same
ancestors below each of its nodes. -/
theorem ancestor_congr_closed {succ succ' : α → List α} {P : α → Prop}
    (hclosed : ∀ x y, P x → y ∈ succ x → P y) (hagree : ∀ x, P x → succ' x = succ x)
    {a d : α} (hd : P d) : Ancestor succ' a d ↔ Ancestor succ a d := by
  constructor
  · intro h
    refine h.of_agree (fun x y hx hy => hclosed x y hx ?_) (fun x hx => (hagree x hx).symm) hd
    rwa [hagree x hx] at hy
  · exact fun h => h.of_agree hclosed hagree hd

/-- Two successor functions that agree outside a node `m`, which no link of the
first one enters, have the same ancestors below every other node. -/
theorem ancestor_congr_fresh {succ succ' : α → List α} {m : α}
    (hagree : ∀ x, x ≠ m → succ' x = succ x) (hfresh : ∀ x, m ∉ succ x)
    {a d : α} (hd : d ≠ m) : Ancestor succ' a d ↔ Ancestor succ a d :=
  ancestor_congr_closed (P := (· ≠ m)) (fun x _ _ hy he => hfresh x (he ▸ hy)) hagree hd

theorem exists_unreferenced [DecidableEq α] {succ : α → List α} {rank : α → ℕ}
    (hrank : ∀ x y, y ∈ succ x → rank y < rank x) (nodes : Finset α) {a : α} (ha : a ∈ nodes) :
    ∃ t ∈ nodes, AncestorOrSelf succ a t ∧ ∀ x ∈ nodes, t ∉ succ x := by
  classical
  let above := nodes.filter fun t => AncestorOrSelf succ a t
  have hne : above.Nonempty := ⟨a,Finset.mem_filter.mpr ⟨ha,.inl rfl⟩⟩
  obtain ⟨t,ht,hmax⟩ := above.exists_max_image rank hne
  simp only [above,Finset.mem_filter] at ht
  refine ⟨t,ht.1,ht.2,?_⟩
  intro x hx htx
  have hxa : x ∈ above := by
    simp only [above,Finset.mem_filter]
    exact ⟨hx,.inr (Ancestor.trans_self ht.2 (.link htx))⟩
  exact absurd (hmax x hxa) (not_le.mpr (hrank x t htx))

section Search

variable [DecidableEq α] (succ : α → List α) (target : α)

/-- Visit the successors of one node: `none` once the target is met, otherwise
every unseen successor is marked and pushed. -/
def visitSuccessors : List α → List α → Finset α → Option (List α × Finset α)
  | [], stack, seen => some (stack,seen)
  | p :: ps, stack, seen =>
    if p = target then none
    else if p ∈ seen then visitSuccessors ps stack seen
    else visitSuccessors ps (p :: stack) (insert p seen)

/-- Pop until the target is met or the stack is empty; `none` is out of fuel. -/
def search : ℕ → List α → Finset α → Option Bool
  | _, [], _ => some false
  | 0, _ :: _, _ => none
  | fuel + 1, current :: stack, seen =>
    match visitSuccessors target (succ current) stack seen with
    | none => some true
    | some (stack,seen) => search fuel stack seen

variable {target}

theorem visitSuccessors_eq_none {ps stack : List α} {seen : Finset α} :
    visitSuccessors target ps stack seen = none ↔ target ∈ ps := by
  induction ps generalizing stack seen with
  | nil => simp [visitSuccessors]
  | cons p ps ih =>
    simp only [visitSuccessors,List.mem_cons]
    split_ifs with hp hs
    · simp [hp]
    · rw [ih]; simp [Ne.symm hp]
    · rw [ih]; simp [Ne.symm hp]

/-- Everything one visit can do: the seen set gains exactly the successors, and
what was newly seen is on the stack. -/
theorem visitSuccessors_eq_some {ps stack stack' : List α} {seen seen' : Finset α}
    (h : visitSuccessors target ps stack seen = some (stack',seen')) :
    (∀ x, x ∈ seen' ↔ x ∈ seen ∨ x ∈ ps) ∧
    (∀ x ∈ stack, x ∈ stack') ∧ (∀ x ∈ stack', x ∈ stack ∨ x ∈ ps) ∧
    (∀ x ∈ seen', x ∈ seen ∨ x ∈ stack') ∧
    stack'.length + seen.card = stack.length + seen'.card := by
  induction ps generalizing stack seen with
  | nil =>
    simp only [visitSuccessors,Option.some.injEq,Prod.mk.injEq] at h
    obtain ⟨rfl,rfl⟩ := h
    simp +contextual
  | cons p ps ih =>
    simp only [visitSuccessors] at h
    split_ifs at h with hp hs
    · obtain ⟨hseen,hold,hnew,hpush,hcard⟩ := ih h
      refine ⟨?_,hold,?_,hpush,hcard⟩
      · intro x
        rw [hseen,List.mem_cons]
        constructor
        · tauto
        · rintro (hx | rfl | hx)
          · exact .inl hx
          · exact .inl hs
          · exact .inr hx
      · exact fun x hx => (hnew x hx).imp id (List.mem_cons_of_mem _)
    · obtain ⟨hseen,hold,hnew,hpush,hcard⟩ := ih h
      refine ⟨?_,?_,?_,?_,?_⟩
      · intro x
        rw [hseen,Finset.mem_insert,List.mem_cons]
        tauto
      · exact fun x hx => hold x (List.mem_cons_of_mem _ hx)
      · intro x hx
        rcases hnew x hx with hx | hx
        · rcases List.mem_cons.mp hx with rfl | hx
          · exact .inr List.mem_cons_self
          · exact .inl hx
        · exact .inr (List.mem_cons_of_mem _ hx)
      · intro x hx
        rcases hpush x hx with hx | hx
        · rcases Finset.mem_insert.mp hx with rfl | hx
          · exact .inr (hold _ List.mem_cons_self)
          · exact .inl hx
        · exact .inr hx
      · rw [Finset.card_insert_of_notMem hs] at hcard
        simp only [List.length_cons] at hcard
        omega

theorem search_sound {fuel : ℕ} {stack : List α} {seen : Finset α}
    (h : search succ target fuel stack seen = some true) :
    ∃ x ∈ stack, Ancestor succ target x := by
  induction fuel generalizing stack seen with
  | zero => cases stack <;> simp [search] at h
  | succ fuel ih =>
    cases stack with
    | nil => simp [search] at h
    | cons current stack =>
      simp only [search] at h
      cases hv : visitSuccessors target (succ current) stack seen with
      | none =>
        exact ⟨current,List.mem_cons_self,.link (visitSuccessors_eq_none.mp hv)⟩
      | some r =>
        rw [hv] at h
        obtain ⟨x,hx,hanc⟩ := ih h
        obtain ⟨_,_,hnew,_,_⟩ := visitSuccessors_eq_some hv
        rcases hnew x hx with hx | hx
        · exact ⟨x,List.mem_cons_of_mem _ hx,hanc⟩
        · exact ⟨current,List.mem_cons_self,hanc.trans (.link hx)⟩

/-- The nodes in `done` are expanded: their successors are seen, none is the
target, and every seen node is expanded or still on the stack. -/
def Expanded (target : α) (done : Finset α) (stack : List α) (seen : Finset α) : Prop :=
  (∀ x ∈ done, ∀ y ∈ succ x, y ≠ target ∧ y ∈ seen) ∧ ∀ x ∈ seen, x ∈ done ∨ x ∈ stack

/-- A search that ends without the target leaves a set closed under successors. -/
theorem search_complete {fuel : ℕ} {stack : List α} {seen : Finset α} (done : Finset α)
    (hinv : Expanded succ target done stack seen)
    (h : search succ target fuel stack seen = some false) :
    ∃ done' : Finset α, done ⊆ done' ∧ (∀ x ∈ stack, x ∈ done') ∧
      ∀ x ∈ done', ∀ y ∈ succ x, y ≠ target ∧ y ∈ done' := by
  induction fuel generalizing stack seen done with
  | zero =>
    cases stack with
    | nil => exact ⟨done,subset_rfl,by simp,fun x hx y hy =>
        ⟨(hinv.1 x hx y hy).1,by simpa using hinv.2 y (hinv.1 x hx y hy).2⟩⟩
    | cons => simp [search] at h
  | succ fuel ih =>
    cases stack with
    | nil => exact ⟨done,subset_rfl,by simp,fun x hx y hy =>
        ⟨(hinv.1 x hx y hy).1,by simpa using hinv.2 y (hinv.1 x hx y hy).2⟩⟩
    | cons current stack =>
      simp only [search] at h
      cases hv : visitSuccessors target (succ current) stack seen with
      | none => simp [hv] at h
      | some r =>
        rw [hv] at h
        obtain ⟨hseen,hold,hnew,hpush,_⟩ := visitSuccessors_eq_some hv
        have htarget : target ∉ succ current := fun ht =>
          absurd (visitSuccessors_eq_none.mpr ht) (by rw [hv]; simp)
        have hstep : Expanded succ target (insert current done) r.1 r.2 := by
          refine ⟨?_,?_⟩
          · intro x hx y hy
            rcases Finset.mem_insert.mp hx with rfl | hx
            · exact ⟨fun he => htarget (he ▸ hy),(hseen y).mpr (.inr hy)⟩
            · exact ⟨(hinv.1 x hx y hy).1,(hseen y).mpr (.inl (hinv.1 x hx y hy).2)⟩
          · intro x hx
            rcases hpush x hx with hx | hx
            · rcases hinv.2 x hx with hx | hx
              · exact .inl (Finset.mem_insert_of_mem hx)
              · rcases List.mem_cons.mp hx with rfl | hx
                · exact .inl (Finset.mem_insert_self _ _)
                · exact .inr (hold x hx)
            · exact .inr hx
        obtain ⟨done',hsub,hstack,hclosed⟩ := ih _ hstep h
        refine ⟨done',(Finset.subset_insert _ _).trans hsub,?_,hclosed⟩
        intro x hx
        rcases List.mem_cons.mp hx with rfl | hx
        · exact hsub (Finset.mem_insert_self _ _)
        · exact hstack x (hold x hx)

/-- Each iteration pops one node and pushes only newly seen ones, so the nodes
that can still be seen bound the number of iterations. -/
theorem search_isSome {nodes : Finset α} (hnodes : ∀ x y, y ∈ succ x → y ∈ nodes)
    {fuel : ℕ} {stack : List α} {seen : Finset α} (hseen : seen ⊆ nodes)
    (hfuel : stack.length + nodes.card ≤ fuel + seen.card) :
    (search succ target fuel stack seen).isSome := by
  induction fuel generalizing stack seen with
  | zero =>
    cases stack with
    | nil => simp [search]
    | cons =>
      have := Finset.card_le_card hseen
      simp only [List.length_cons] at hfuel
      omega
  | succ fuel ih =>
    cases stack with
    | nil => simp [search]
    | cons current stack =>
      simp only [search]
      cases hv : visitSuccessors target (succ current) stack seen with
      | none => rfl
      | some r =>
        obtain ⟨hs,_,_,_,hcard⟩ := visitSuccessors_eq_some hv
        refine ih ?_ ?_
        · intro x hx
          rcases (hs x).mp hx with hx | hx
          · exact hseen hx
          · exact hnodes _ _ hx
        · simp only [List.length_cons] at hfuel
          omega

theorem search_succ {fuel : ℕ} {stack : List α} {seen : Finset α} {found : Bool}
    (h : search succ target fuel stack seen = some found) :
    search succ target (fuel+1) stack seen = some found := by
  induction fuel generalizing stack seen with
  | zero =>
    cases stack with
    | nil => exact h
    | cons => cases h
  | succ fuel ih =>
    cases stack with
    | nil => exact h
    | cons current stack =>
      rw [search] at h ⊢
      cases hv : visitSuccessors target (succ current) stack seen with
      | none => rwa [hv] at h
      | some r =>
        rw [hv] at h
        exact ih h

theorem search_mono {fuel fuel' : ℕ} (hle : fuel ≤ fuel') {stack : List α} {seen : Finset α}
    {found : Bool} (h : search succ target fuel stack seen = some found) :
    search succ target fuel' stack seen = some found := by
  induction fuel', hle using Nat.le_induction with
  | base => exact h
  | succ _ _ ih => exact search_succ succ ih

variable (target)

/-- Search from `start`, with the fuel of the caller. -/
def reaches (fuel : ℕ) (start : α) : Bool :=
  (search succ target fuel [start] ∅).getD false

/-- With fuel for every node that is a successor at all, the search ends, and any more fuel
leaves its answer as it is. -/
theorem search_eq_reaches {nodes : Finset α} (hnodes : ∀ x y, y ∈ succ x → y ∈ nodes)
    {fuel fuel' : ℕ} (hfuel : nodes.card + 1 ≤ fuel) (hle : fuel ≤ fuel') (start : α) :
    search succ target fuel' [start] ∅ = some (reaches succ target fuel start) := by
  have hsome : (search succ target fuel [start] ∅).isSome :=
    search_isSome succ hnodes (Finset.empty_subset _) (by simp; omega)
  obtain ⟨found,hfound⟩ := Option.isSome_iff_exists.mp hsome
  rw [reaches,hfound]
  exact search_mono succ hle hfound

variable {target}

theorem reaches_iff {nodes : Finset α} (hnodes : ∀ x y, y ∈ succ x → y ∈ nodes)
    {fuel : ℕ} (hfuel : nodes.card + 1 ≤ fuel) {start : α} :
    reaches succ target fuel start = true ↔ Ancestor succ target start := by
  have hrun := search_eq_reaches succ target hnodes hfuel le_rfl start
  constructor
  · intro h
    rw [h] at hrun
    obtain ⟨x,hx,hanc⟩ := search_sound succ hrun
    exact (List.mem_singleton.mp hx) ▸ hanc
  · intro h
    cases hb : reaches succ target fuel start with
    | true => rfl
    | false =>
      exfalso
      rw [hb] at hrun
      obtain ⟨done,_,hstart,hclosed⟩ := search_complete succ ∅ (by simp [Expanded]) hrun
      have hmem : ∀ y, Ancestor succ y start → y ≠ target ∧ y ∈ done := by
        intro y hy
        induction hy with
        | single h => exact hclosed _ (hstart _ (by simp)) _ h
        | tail _ h ih => exact hclosed _ ih.2 _ h
      exact (hmem target h).1 rfl

end Search

end GraphSearch
end EventCore
