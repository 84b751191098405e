import Mathlib.Data.List.Basic
import Mathlib.Order.Lattice

/-! Cursor pagination over an ascending sequence whose pages are cut before undecodable
entries are dropped, and the exact condition under which following the cursor from the
start to the first empty page delivers everything. -/
namespace EventCore
namespace PagedScan

variable {α β ι : Type*}

/-- A position after the cursor; every position is after no cursor. -/
def After [LT ι] (cursor : Option ι) (p : ι) : Prop := ∀ c ∈ cursor, c < p

instance [LT ι] [DecidableLT ι] (cursor : Option ι) (p : ι) : Decidable (After cursor p) :=
  inferInstanceAs (Decidable (∀ c ∈ cursor, c < p))

@[simp] theorem after_none [LT ι] (p : ι) : After none p := by simp [After]

@[simp] theorem after_some [LT ι] {c p : ι} : After (some c) p ↔ c < p := by simp [After]

/-- Follow the position of the last result until a read returns nothing; `none` is out of fuel. -/
def follow (read : Option ι → List (β × ι)) : ℕ → Option ι → Option (List (β × ι))
  | 0, _ => none
  | fuel + 1, cursor =>
    match (read cursor).getLast? with
    | none => some []
    | some last => (follow read fuel (some last.2)).map (read cursor ++ ·)

section Page

variable (pos : α → ι) (decode : α → Option β)

def decodeAt (a : α) : Option (β × ι) := (decode a).map (·,pos a)

/-- The first `limit` entries after the cursor, less those that do not decode. -/
def page [LT ι] [DecidableLT ι] (limit : ℕ) (entries : List α) (cursor : Option ι) :
    List (β × ι) :=
  ((entries.filter fun a => After cursor (pos a)).take limit).filterMap (decodeAt pos decode)

/-- Directly before an entry that decodes there are never `limit` entries that do not. -/
def NoLongGap (limit : ℕ) (entries : List α) : Prop :=
  ∀ before gap a after, entries = before ++ gap ++ a :: after →
    (∀ x ∈ gap, decode x = none) → (decode a).isSome → gap.length < limit

end Page

variable {pos : α → ι} {decode : α → Option β}

theorem NoLongGap.of_append {limit : ℕ} {l r : List α} (h : NoLongGap decode limit (l ++ r)) :
    NoLongGap decode limit r := by
  intro before gap a after heq hgap ha
  exact h (l ++ before) gap a after (by simp [heq]) hgap ha

variable (decode) in
theorem exists_last_decoded (l : List α) :
    (∀ x ∈ l, decode x = none) ∨
    ∃ before a after, l = before ++ a :: after ∧ (decode a).isSome ∧ ∀ x ∈ after, decode x = none := by
  induction l with
  | nil => exact .inl (by simp)
  | cons x l ih =>
    rcases ih with hnone | ⟨before,a,after,rfl,ha,hafter⟩
    · cases hx : decode x with
      | none => exact .inl (List.forall_mem_cons.mpr ⟨hx,hnone⟩)
      | some b => exact .inr ⟨[],x,l,rfl,by simp [hx],hnone⟩
    · exact .inr ⟨x :: before,a,after,rfl,ha,hafter⟩

variable (decode) in
theorem exists_first_decoded (l : List α) :
    (∀ x ∈ l, decode x = none) ∨
    ∃ gap a after, l = gap ++ a :: after ∧ (decode a).isSome ∧ ∀ x ∈ gap, decode x = none := by
  induction l with
  | nil => exact .inl (by simp)
  | cons x l ih =>
    cases hx : decode x with
    | some b => exact .inr ⟨[],x,l,rfl,by simp [hx],by simp⟩
    | none =>
      rcases ih with hnone | ⟨gap,a,after,rfl,ha,hgap⟩
      · exact .inl (List.forall_mem_cons.mpr ⟨hx,hnone⟩)
      · exact .inr ⟨x :: gap,a,after,rfl,ha,List.forall_mem_cons.mpr ⟨hx,hgap⟩⟩

theorem filterMap_decodeAt_eq_nil {l : List α} (h : ∀ x ∈ l, decode x = none) :
    l.filterMap (decodeAt pos decode) = [] := by
  rw [List.filterMap_eq_nil_iff]
  intro x hx
  simp [decodeAt,h x hx]

/-- A page that ends in undecodable entries returns what precedes them, its last result
being at the last entry that decodes. -/
theorem filterMap_decodeAt_last {before after : List α} {a : α} {b : β} (ha : decode a = some b)
    (hafter : ∀ x ∈ after, decode x = none) :
    (before ++ a :: after).filterMap (decodeAt pos decode) =
      before.filterMap (decodeAt pos decode) ++ [(b,pos a)] := by
  rw [List.filterMap_append,List.filterMap_cons,filterMap_decodeAt_eq_nil hafter]
  simp [decodeAt,ha]

section Follow

variable [LinearOrder ι]

theorem filter_after_split {l r : List α} {a : α}
    (h : (l ++ a :: r).Pairwise fun x y => pos x < pos y) :
    (l ++ a :: r).filter (fun x => After (some (pos a)) (pos x)) = r := by
  obtain ⟨_,hr,hl⟩ := List.pairwise_append.mp h
  have hnil : l.filter (fun x => decide (After (some (pos a)) (pos x))) = [] := by
    rw [List.filter_eq_nil_iff]
    intro x hx
    simpa using (hl x hx a List.mem_cons_self).le
  have hall : r.filter (fun x => decide (After (some (pos a)) (pos x))) = r := by
    rw [List.filter_eq_self]
    intro x hx
    simpa using (List.pairwise_cons.mp hr).1 x hx
  rw [List.filter_append,hnil,List.filter_cons,hall]
  simp

theorem remaining_after {entries l r : List α} {a : α} {cursor : Option ι}
    (hsorted : entries.Pairwise fun x y => pos x < pos y)
    (hrem : entries.filter (fun x => After cursor (pos x)) = l ++ a :: r) :
    entries.filter (fun x => After (some (pos a)) (pos x)) = r := by
  have ha : a ∈ entries.filter fun x => After cursor (pos x) := by simp [hrem]
  have hcur : After cursor (pos a) := by simpa using (List.mem_filter.mp ha).2
  have hsplit : (l ++ a :: r).Pairwise fun x y => pos x < pos y :=
    hrem ▸ hsorted.sublist List.filter_sublist
  rw [← filter_after_split hsplit,← hrem,List.filter_filter]
  congr 1
  funext x
  by_cases hx : pos a < pos x
  · have hafter : After cursor (pos x) := fun c hc => (hcur c hc).trans hx
    simp [hx,hafter]
  · simp [hx]

variable {limit : ℕ} {entries : List α}

theorem follow_complete (hsorted : entries.Pairwise fun x y => pos x < pos y)
    {fuel : ℕ} {cursor : Option ι} {rest : List α}
    (hrem : entries.filter (fun x => After cursor (pos x)) = rest)
    (hgap : NoLongGap decode limit rest) (hfuel : rest.length < fuel) :
    follow (page pos decode limit entries) fuel cursor =
      some (rest.filterMap (decodeAt pos decode)) := by
  induction fuel generalizing cursor rest with
  | zero => omega
  | succ fuel ih =>
    have hpage : page pos decode limit entries cursor =
        (rest.take limit).filterMap (decodeAt pos decode) := by rw [page,hrem]
    rcases exists_last_decoded decode (rest.take limit) with
      hnone | ⟨before,a,after,htake,ha,hafter⟩
    · -- an empty page: nothing that remains decodes
      have hrest : ∀ x ∈ rest, decode x = none := by
        rcases exists_first_decoded decode rest with h | ⟨gap,a,after,rfl,ha,hgap'⟩
        · exact h
        · have hlen := hgap [] gap a after rfl hgap' ha
          have hmem : a ∈ (gap ++ a :: after).take limit := by
            rw [List.take_append,List.mem_append]
            right
            obtain ⟨n,hn⟩ : ∃ n, limit-gap.length = n+1 := ⟨limit-gap.length-1,by omega⟩
            simp [hn]
          simp [hnone a hmem] at ha
      rw [follow,hpage,filterMap_decodeAt_eq_nil hnone,filterMap_decodeAt_eq_nil hrest]
      rfl
    · obtain ⟨b,hb⟩ := Option.isSome_iff_exists.mp ha
      have hsplit : rest = before ++ a :: (after ++ rest.drop limit) := by
        rw [← List.cons_append,← List.append_assoc,← htake,List.take_append_drop]
      have hnext := remaining_after hsorted (hrem.trans hsplit)
      have hlen : (after ++ rest.drop limit).length < fuel := by
        have := congrArg List.length hsplit
        simp only [List.length_append,List.length_cons] at this hfuel ⊢
        omega
      have hgap' : NoLongGap decode limit (after ++ rest.drop limit) := by
        refine NoLongGap.of_append (l := before ++ [a]) ?_
        rwa [List.append_assoc,List.singleton_append,← hsplit]
      rw [follow,hpage,htake,filterMap_decodeAt_last hb hafter]
      simp only [List.getLast?_append,List.getLast?_singleton,Option.some_or]
      have htail : (after ++ rest.drop limit).filterMap (decodeAt pos decode) =
          (rest.drop limit).filterMap (decodeAt pos decode) := by
        rw [List.filterMap_append,filterMap_decodeAt_eq_nil hafter,List.nil_append]
      rw [ih hnext hgap' hlen,Option.map_some,← filterMap_decodeAt_last hb hafter,htail,
        ← List.filterMap_append,← htake,List.take_append_drop]

theorem exists_eq_append_cons {before gap l tail : List α} {x : α}
    (h : before ++ gap = l ++ x :: tail) (hx : x ∉ gap) : ∃ rest, before = l ++ x :: rest := by
  rcases List.append_eq_append_iff.mp h with ⟨t,rfl,ht⟩ | ⟨t,rfl,ht⟩
  · exact absurd (by simp [ht]) hx
  · cases t with
    | nil =>
      rw [List.nil_append] at ht
      exact absurd (ht ▸ List.mem_cons_self) hx
    | cons y t =>
      obtain ⟨rfl,_⟩ := List.cons.inj ht
      exact ⟨t,rfl⟩

theorem follow_stuck (hsorted : entries.Pairwise fun x y => pos x < pos y)
    {fuel : ℕ} {cursor : Option ι} {before gap after : List α} {a : α}
    (hrem : entries.filter (fun x => After cursor (pos x)) = before ++ gap ++ a :: after)
    (hgap : ∀ x ∈ gap, decode x = none) (hlong : limit ≤ gap.length)
    {delivered : List (β × ι)}
    (h : follow (page pos decode limit entries) fuel cursor = some delivered) :
    ∀ e ∈ delivered, e.2 ≠ pos a := by
  induction fuel generalizing cursor before delivered with
  | zero => cases h
  | succ fuel ih =>
    have hpage : page pos decode limit entries cursor =
        ((before ++ gap).take limit).filterMap (decodeAt pos decode) := by
      rw [page,hrem,List.take_append_of_le_length (by simp; omega)]
    rw [follow,hpage] at h
    rcases exists_last_decoded decode ((before ++ gap).take limit) with
      hnone | ⟨l,x,r,htake,hx,hr⟩
    · rw [filterMap_decodeAt_eq_nil hnone] at h
      cases h
      simp
    · obtain ⟨b,hb⟩ := Option.isSome_iff_exists.mp hx
      -- the last decoded entry of the page lies before the gap
      have hwhole : before ++ gap = l ++ x :: (r ++ (before ++ gap).drop limit) := by
        rw [← List.cons_append,← List.append_assoc,← htake,List.take_append_drop]
      obtain ⟨rest,rfl⟩ := exists_eq_append_cons hwhole fun hxg => by simp [hgap x hxg] at hx
      have hsplit : entries.filter (fun y => After cursor (pos y)) =
          l ++ x :: (rest ++ gap ++ a :: after) := by
        rw [hrem]
        simp
      have hnext := remaining_after hsorted hsplit
      rw [htake,filterMap_decodeAt_last hb hr] at h
      simp only [List.getLast?_append,List.getLast?_singleton,Option.some_or,
        Option.map_eq_some_iff] at h
      obtain ⟨tail,htail,rfl⟩ := h
      have hpair : (l ++ x :: (rest ++ gap ++ a :: after)).Pairwise fun u v => pos u < pos v :=
        hsplit ▸ hsorted.sublist List.filter_sublist
      have hlt : ∀ y ∈ l ++ [x], pos y < pos a := by
        intro y hy
        have hpair' : ((l ++ [x]) ++ (rest ++ gap ++ a :: after)).Pairwise
            fun u v => pos u < pos v := by simpa using hpair
        exact (List.pairwise_append.mp hpair').2.2 y hy a (by simp)
      intro e he
      rcases List.mem_append.mp he with he | he
      · rw [← filterMap_decodeAt_last hb (List.forall_mem_nil _)] at he
        obtain ⟨y,hy,hdec⟩ := List.mem_filterMap.mp he
        simp only [decodeAt,Option.map_eq_some_iff] at hdec
        obtain ⟨_,_,rfl⟩ := hdec
        exact (hlt y hy).ne
      · exact ih hnext htail e he

/-- Following the cursor from the start delivers every entry that decodes, in order and
once, exactly when no gap is as long as a page. -/
theorem follow_eq_iff (hsorted : entries.Pairwise fun x y => pos x < pos y) {fuel : ℕ}
    (hfuel : entries.length < fuel) :
    follow (page pos decode limit entries) fuel none =
      some (entries.filterMap (decodeAt pos decode)) ↔ NoLongGap decode limit entries := by
  have hall : entries.filter (fun x => After (none : Option ι) (pos x)) = entries := by
    simp
  constructor
  · intro h before gap a after heq hgap ha
    by_contra hlong
    obtain ⟨b,hb⟩ := Option.isSome_iff_exists.mp ha
    have hmem : (b,pos a) ∈ entries.filterMap (decodeAt pos decode) :=
      List.mem_filterMap.mpr ⟨a,by simp [heq],by simp [decodeAt,hb]⟩
    exact follow_stuck hsorted (hall.trans heq) hgap (Nat.le_of_not_lt hlong) h _ hmem rfl
  · exact fun h => follow_complete hsorted hall h hfuel

end Follow

section Poll

variable [LinearOrder ι]

/-- A reader that goes on from its last cursor has been given exactly what decodes among the
entries up to there, in order. -/
structure Polled (pos : α → ι) (decode : α → Option β) (entries : List α) (cursor : Option ι)
    (seen : List (β × ι)) : Prop where
  covered : ∃ done, entries = done ++ entries.filter (fun a => After cursor (pos a)) ∧
    seen = done.filterMap (decodeAt pos decode)

variable {entries : List α} {cursor : Option ι} {seen : List (β × ι)}

theorem Polled.start (entries : List α) : Polled pos decode entries none [] :=
  ⟨[],by simp,rfl⟩

theorem Polled.extend (h : Polled pos decode entries cursor seen) {more : List α}
    (hmore : ∀ a ∈ more, After cursor (pos a)) :
    Polled pos decode (entries ++ more) cursor seen := by
  obtain ⟨done,hentries,hseen⟩ := h.covered
  have hfilter : more.filter (fun a => decide (After cursor (pos a))) = more := by
    rw [List.filter_eq_self]
    intro a ha
    exact decide_eq_true (hmore a ha)
  refine ⟨done,?_,hseen⟩
  rw [List.filter_append,hfilter,← List.append_assoc,← hentries]

theorem Polled.poll (h : Polled pos decode entries cursor seen)
    (hsorted : entries.Pairwise fun x y => pos x < pos y) (limit : ℕ) :
    Polled pos decode entries
      (((page pos decode limit entries cursor).getLast?.map Prod.snd).or cursor)
      (seen ++ page pos decode limit entries cursor) := by
  obtain ⟨done,hentries,hseen⟩ := h.covered
  obtain ⟨rest,hrest⟩ : ∃ rest, entries.filter (fun a => After cursor (pos a)) = rest := ⟨_,rfl⟩
  have hpage : page pos decode limit entries cursor =
      (rest.take limit).filterMap (decodeAt pos decode) := by rw [page,hrest]
  rcases exists_last_decoded decode (rest.take limit) with hnone | ⟨before,a,after,htake,ha,hafter⟩
  · rw [hpage,filterMap_decodeAt_eq_nil hnone]
    exact ⟨done,hentries,by simpa using hseen⟩
  · obtain ⟨b,hb⟩ := Option.isSome_iff_exists.mp ha
    have hsplit : rest = before ++ a :: (after ++ rest.drop limit) := by
      rw [← List.cons_append,← List.append_assoc,← htake,List.take_append_drop]
    have hnext := remaining_after hsorted (hrest.trans hsplit)
    rw [hpage,htake,filterMap_decodeAt_last hb hafter]
    refine ⟨done ++ (before ++ [a]),?_,?_⟩
    · simp only [List.getLast?_append,List.getLast?_singleton,Option.some_or,Option.map_some]
      rw [hnext]
      conv_lhs => rw [hentries,hrest,hsplit]
      simp
    · rw [hseen,List.filterMap_append,filterMap_decodeAt_last hb (List.forall_mem_nil _)]

theorem Polled.complete (h : Polled pos decode entries cursor seen) {limit : ℕ}
    (hgap : NoLongGap decode limit entries) (hpage : page pos decode limit entries cursor = []) :
    seen = entries.filterMap (decodeAt pos decode) := by
  obtain ⟨done,hentries,hseen⟩ := h.covered
  obtain ⟨rest,hrest⟩ : ∃ rest, entries.filter (fun a => After cursor (pos a)) = rest := ⟨_,rfl⟩
  rw [hrest] at hentries
  have hnone : ∀ a ∈ rest, decode a = none := by
    rcases exists_first_decoded decode rest with h | ⟨gap,a,after,hsplit,ha,hnone⟩
    · exact h
    · have hlen := hgap done gap a after (by rw [hentries,hsplit,List.append_assoc]) hnone ha
      obtain ⟨b,hb⟩ := Option.isSome_iff_exists.mp ha
      have hmem : a ∈ rest.take limit := by
        obtain ⟨n,hn⟩ : ∃ n, limit-gap.length = n+1 := ⟨limit-gap.length-1,by omega⟩
        rw [hsplit,List.take_append,hn,List.take_succ_cons]
        simp
      rw [page,hrest,List.filterMap_eq_nil_iff] at hpage
      have := hpage a hmem
      simp [decodeAt,hb] at this
  rw [hseen,hentries,List.filterMap_append,filterMap_decodeAt_eq_nil hnone,List.append_nil]

theorem Polled.ascending (h : Polled pos decode entries cursor seen)
    (hsorted : entries.Pairwise fun x y => pos x < pos y) :
    seen.Pairwise fun x y => x.2 < y.2 := by
  obtain ⟨done,hentries,rfl⟩ := h.covered
  rw [hentries] at hsorted
  refine List.Pairwise.filterMap _ ?_ (List.pairwise_append.mp hsorted).1
  intro a b hlt x hx y hy
  obtain ⟨_,_,rfl⟩ := Option.map_eq_some_iff.mp hx
  obtain ⟨_,_,rfl⟩ := Option.map_eq_some_iff.mp hy
  exact hlt

theorem Polled.length_le (h : Polled pos decode entries cursor seen) :
    seen.length ≤ entries.length := by
  obtain ⟨done,hentries,rfl⟩ := h.covered
  have hlen := congrArg List.length hentries
  rw [List.length_append] at hlen
  have hle := List.length_filterMap_le (decodeAt pos decode) done
  omega

theorem mem_page {limit : ℕ} {r : β × ι} (h : r ∈ page pos decode limit entries cursor) :
    ∃ a ∈ entries, pos a = r.2 := by
  obtain ⟨a,ha,hr⟩ := List.mem_filterMap.mp h
  obtain ⟨b,_,rfl⟩ := Option.map_eq_some_iff.mp hr
  exact ⟨a,(List.mem_filter.mp (List.mem_of_mem_take ha)).1,rfl⟩

end Poll

end PagedScan
end EventCore
