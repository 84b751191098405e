import Mathlib.Data.List.Basic
import Mathlib.Data.String.Basic

/-! Documents of nested arrays and objects over an arbitrary type of numbers: renaming the
numbers, and the key order that reading an object into a sorted map leaves. -/
namespace EventCore
namespace JsonTree

/-- A document. The members of an object stand in the order they are written. -/
inductive Document (N : Type)
  | null
  | bool (b : Bool)
  | number (n : N)
  | string (s : String)
  | array (items : List (Document N))
  | object (members : List (String × Document N))

variable {N M : Type}

/-- Insert into a list of members in key order; the member of an equal key is replaced. -/
def insertMember (p : String × Document N) : List (String × Document N) → List (String × Document N)
  | [] => [p]
  | q :: rest =>
    if p.1 < q.1 then p :: q :: rest
    else if p.1 = q.1 then p :: rest
    else q :: insertMember p rest

def insertMembers (members : List (String × Document N)) : List (String × Document N) :=
  members.foldl (fun sorted p => insertMember p sorted) []

mutual

def Document.map (f : N → M) : Document N → Document M
  | .null => .null
  | .bool b => .bool b
  | .number n => .number (f n)
  | .string s => .string s
  | .array items => .array (mapItems f items)
  | .object members => .object (mapMembers f members)

def mapItems (f : N → M) : List (Document N) → List (Document M)
  | [] => []
  | t :: ts => t.map f :: mapItems f ts

def mapMembers (f : N → M) : List (String × Document N) → List (String × Document M)
  | [] => []
  | (key,t) :: members => (key,t.map f) :: mapMembers f members

end

mutual

def Document.numbers : Document N → List N
  | .null | .bool _ | .string _ => []
  | .number n => [n]
  | .array items => itemNumbers items
  | .object members => memberNumbers members

def itemNumbers : List (Document N) → List N
  | [] => []
  | t :: ts => t.numbers ++ itemNumbers ts

def memberNumbers : List (String × Document N) → List N
  | [] => []
  | (_,t) :: members => t.numbers ++ memberNumbers members

end

mutual

/-- Every object with its members in key order, of a repeated key the last one. -/
def Document.keyOrdered : Document N → Document N
  | .null => .null
  | .bool b => .bool b
  | .number n => .number n
  | .string s => .string s
  | .array items => .array (keyOrderedItems items)
  | .object members => .object (insertMembers (keyOrderedMembers members))

def keyOrderedItems : List (Document N) → List (Document N)
  | [] => []
  | t :: ts => t.keyOrdered :: keyOrderedItems ts

def keyOrderedMembers : List (String × Document N) → List (String × Document N)
  | [] => []
  | (key,t) :: members => (key,t.keyOrdered) :: keyOrderedMembers members

end

section Numbers

mutual

theorem Document.map_congr {f g : N → M} :
    ∀ t : Document N, (∀ n ∈ t.numbers, f n = g n) → t.map f = t.map g
  | .null, _ => rfl
  | .bool _, _ => rfl
  | .string _, _ => rfl
  | .number n, h => by
    rw [Document.map,Document.map,h n (by simp [Document.numbers])]
  | .array items, h => by
    rw [Document.map,Document.map,mapItems_congr items fun n hn => h n (by rwa [Document.numbers])]
  | .object members, h => by
    rw [Document.map,Document.map,mapMembers_congr members fun n hn => h n (by rwa [Document.numbers])]

theorem mapItems_congr {f g : N → M} :
    ∀ ts : List (Document N), (∀ n ∈ itemNumbers ts, f n = g n) → mapItems f ts = mapItems g ts
  | [], _ => rfl
  | t :: ts, h => by
    rw [itemNumbers] at h
    rw [mapItems,mapItems,t.map_congr fun n hn => h n (List.mem_append_left _ hn),
      mapItems_congr ts fun n hn => h n (List.mem_append_right _ hn)]

theorem mapMembers_congr {f g : N → M} : ∀ members : List (String × Document N),
    (∀ n ∈ memberNumbers members, f n = g n) → mapMembers f members = mapMembers g members
  | [], _ => rfl
  | (key,t) :: members, h => by
    rw [memberNumbers] at h
    rw [mapMembers,mapMembers,t.map_congr fun n hn => h n (List.mem_append_left _ hn),
      mapMembers_congr members fun n hn => h n (List.mem_append_right _ hn)]

end

mutual

theorem Document.map_map {L : Type} (f : N → M) (g : M → L) :
    ∀ t : Document N, (t.map f).map g = t.map fun n => g (f n)
  | .null => rfl
  | .bool _ => rfl
  | .string _ => rfl
  | .number _ => rfl
  | .array items => by rw [Document.map,Document.map,Document.map,mapItems_map f g items]
  | .object members => by rw [Document.map,Document.map,Document.map,mapMembers_map f g members]

theorem mapItems_map {L : Type} (f : N → M) (g : M → L) :
    ∀ ts : List (Document N), mapItems g (mapItems f ts) = mapItems (fun n => g (f n)) ts
  | [] => rfl
  | t :: ts => by rw [mapItems,mapItems,mapItems,t.map_map f g,mapItems_map f g ts]

theorem mapMembers_map {L : Type} (f : N → M) (g : M → L) : ∀ members : List (String × Document N),
    mapMembers g (mapMembers f members) = mapMembers (fun n => g (f n)) members
  | [] => rfl
  | (key,t) :: members => by
    rw [mapMembers,mapMembers,mapMembers,t.map_map f g,mapMembers_map f g members]

end

mutual

theorem Document.numbers_map (f : N → M) : ∀ t : Document N, (t.map f).numbers = t.numbers.map f
  | .null => rfl
  | .bool _ => rfl
  | .string _ => rfl
  | .number _ => rfl
  | .array items => by rw [Document.map,Document.numbers,Document.numbers,itemNumbers_map f items]
  | .object members => by rw [Document.map,Document.numbers,Document.numbers,memberNumbers_map f members]

theorem itemNumbers_map (f : N → M) :
    ∀ ts : List (Document N), itemNumbers (mapItems f ts) = (itemNumbers ts).map f
  | [] => rfl
  | t :: ts => by
    rw [mapItems,itemNumbers,itemNumbers,t.numbers_map f,itemNumbers_map f ts,List.map_append]

theorem memberNumbers_map (f : N → M) : ∀ members : List (String × Document N),
    memberNumbers (mapMembers f members) = (memberNumbers members).map f
  | [] => rfl
  | (key,t) :: members => by
    rw [mapMembers,memberNumbers,memberNumbers,t.numbers_map f,memberNumbers_map f members,
      List.map_append]

end

end Numbers

section Order

theorem mem_memberNumbers {members : List (String × Document N)} {n : N} :
    n ∈ memberNumbers members ↔ ∃ p ∈ members, n ∈ p.2.numbers := by
  induction members with
  | nil => simp [memberNumbers]
  | cons p members ih => simp [memberNumbers,ih]

theorem mem_of_mem_insertMember {p q : String × Document N} {sorted : List (String × Document N)}
    (h : q ∈ insertMember p sorted) : q = p ∨ q ∈ sorted := by
  induction sorted with
  | nil => simpa [insertMember] using h
  | cons x rest ih =>
    unfold insertMember at h
    split_ifs at h
    · simpa using h
    · simp only [List.mem_cons] at h ⊢
      tauto
    · simp only [List.mem_cons] at h ⊢
      have := fun hr => ih hr
      tauto

theorem mem_of_mem_insertMembers {q : String × Document N} {members : List (String × Document N)}
    (h : q ∈ insertMembers members) : q ∈ members := by
  have hgen : ∀ (members sorted : List (String × Document N)),
      q ∈ members.foldl (fun sorted p => insertMember p sorted) sorted →
        q ∈ members ∨ q ∈ sorted := by
    intro members
    induction members with
    | nil => exact fun sorted hq => .inr hq
    | cons p members ih =>
      intro sorted hq
      rcases ih _ hq with hq | hq
      · exact .inl (List.mem_cons_of_mem _ hq)
      · rcases mem_of_mem_insertMember hq with rfl | hq
        · exact .inl List.mem_cons_self
        · exact .inr hq
  simpa using hgen members [] h

mutual

theorem Document.numbers_keyOrdered_subset : ∀ t : Document N, t.keyOrdered.numbers ⊆ t.numbers
  | .null => fun _ h => h
  | .bool _ => fun _ h => h
  | .string _ => fun _ h => h
  | .number _ => fun _ h => h
  | .array items => by
    rw [Document.keyOrdered,Document.numbers,Document.numbers]
    exact itemNumbers_keyOrderedItems_subset items
  | .object members => by
    rw [Document.keyOrdered,Document.numbers,Document.numbers]
    intro n hn
    obtain ⟨p,hp,hnp⟩ := mem_memberNumbers.mp hn
    exact memberNumbers_keyOrderedMembers_subset members
      (mem_memberNumbers.mpr ⟨p,mem_of_mem_insertMembers hp,hnp⟩)

theorem itemNumbers_keyOrderedItems_subset :
    ∀ ts : List (Document N), itemNumbers (keyOrderedItems ts) ⊆ itemNumbers ts
  | [] => fun _ h => h
  | t :: ts => by
    rw [keyOrderedItems,itemNumbers,itemNumbers]
    intro n hn
    rcases List.mem_append.mp hn with hn | hn
    · exact List.mem_append_left _ (t.numbers_keyOrdered_subset hn)
    · exact List.mem_append_right _ (itemNumbers_keyOrderedItems_subset ts hn)

theorem memberNumbers_keyOrderedMembers_subset : ∀ members : List (String × Document N),
    memberNumbers (keyOrderedMembers members) ⊆ memberNumbers members
  | [] => fun _ h => h
  | (key,t) :: members => by
    rw [keyOrderedMembers,memberNumbers,memberNumbers]
    intro n hn
    rcases List.mem_append.mp hn with hn | hn
    · exact List.mem_append_left _ (t.numbers_keyOrdered_subset hn)
    · exact List.mem_append_right _ (memberNumbers_keyOrderedMembers_subset members hn)

end

def KeySorted (members : List (String × Document N)) : Prop := members.Pairwise fun p q => p.1 < q.1

theorem keySorted_insertMember {members : List (String × Document N)} (h : KeySorted members)
    (p : String × Document N) : KeySorted (insertMember p members) := by
  induction members with
  | nil => exact List.pairwise_singleton _ _
  | cons q rest ih =>
    obtain ⟨hq,hrest⟩ := List.pairwise_cons.mp h
    unfold insertMember
    split_ifs with hlt heq
    · refine List.pairwise_cons.mpr ⟨fun x hx => ?_,h⟩
      rcases List.mem_cons.mp hx with rfl | hx
      · exact hlt
      · exact hlt.trans (hq x hx)
    · exact List.pairwise_cons.mpr ⟨fun x hx => heq ▸ hq x hx,hrest⟩
    · refine List.pairwise_cons.mpr ⟨fun x hx => ?_,ih hrest⟩
      rcases mem_of_mem_insertMember hx with rfl | hx
      · exact lt_of_le_of_ne (not_lt.mp hlt) (Ne.symm heq)
      · exact hq x hx

theorem keySorted_insertMembers (members : List (String × Document N)) :
    KeySorted (insertMembers members) := by
  have hgen : ∀ (members sorted : List (String × Document N)), KeySorted sorted →
      KeySorted (members.foldl (fun sorted p => insertMember p sorted) sorted) := by
    intro members
    induction members with
    | nil => exact fun _ h => h
    | cons p members ih => exact fun sorted h => ih _ (keySorted_insertMember h p)
  exact hgen members [] List.Pairwise.nil

theorem insertMember_last {p : String × Document N} {members : List (String × Document N)}
    (h : ∀ q ∈ members, q.1 < p.1) : insertMember p members = members ++ [p] := by
  induction members with
  | nil => rfl
  | cons q rest ih =>
    have hq := h q List.mem_cons_self
    rw [insertMember,if_neg (not_lt.mpr hq.le),if_neg hq.ne',
      ih fun x hx => h x (List.mem_cons_of_mem _ hx)]
    rfl

theorem insertMembers_of_keySorted {members : List (String × Document N)} (h : KeySorted members) :
    insertMembers members = members := by
  have hgen : ∀ (members sorted : List (String × Document N)), KeySorted (sorted ++ members) →
      members.foldl (fun sorted p => insertMember p sorted) sorted = sorted ++ members := by
    intro members
    induction members with
    | nil => simp
    | cons p members ih =>
      intro sorted hsorted
      have hlast : ∀ q ∈ sorted, q.1 < p.1 := fun q hq =>
        (List.pairwise_append.mp hsorted).2.2 q hq p List.mem_cons_self
      rw [List.foldl_cons,insertMember_last hlast,ih _ (by simpa using hsorted)]
      simp
  exact hgen members [] h

theorem keyOrderedMembers_eq {members : List (String × Document N)}
    (h : ∀ p ∈ members, p.2.keyOrdered = p.2) : keyOrderedMembers members = members := by
  induction members with
  | nil => rfl
  | cons p members ih =>
    obtain ⟨key,t⟩ := p
    rw [keyOrderedMembers,h (key,t) List.mem_cons_self,
      ih fun q hq => h q (List.mem_cons_of_mem _ hq)]

mutual

theorem Document.keyOrdered_keyOrdered : ∀ t : Document N, t.keyOrdered.keyOrdered = t.keyOrdered
  | .null => rfl
  | .bool _ => rfl
  | .string _ => rfl
  | .number _ => rfl
  | .array items => by
    rw [Document.keyOrdered,Document.keyOrdered,keyOrderedItems_keyOrderedItems items]
  | .object members => by
    have hkept : ∀ p ∈ insertMembers (keyOrderedMembers members), p.2.keyOrdered = p.2 :=
      fun p hp => keyOrdered_of_mem_keyOrderedMembers members p (mem_of_mem_insertMembers hp)
    rw [Document.keyOrdered,Document.keyOrdered,keyOrderedMembers_eq hkept,
      insertMembers_of_keySorted (keySorted_insertMembers _)]

theorem keyOrderedItems_keyOrderedItems :
    ∀ ts : List (Document N), keyOrderedItems (keyOrderedItems ts) = keyOrderedItems ts
  | [] => rfl
  | t :: ts => by
    rw [keyOrderedItems,keyOrderedItems,t.keyOrdered_keyOrdered,
      keyOrderedItems_keyOrderedItems ts]

theorem keyOrdered_of_mem_keyOrderedMembers : ∀ members : List (String × Document N),
    ∀ p ∈ keyOrderedMembers members, p.2.keyOrdered = p.2
  | [], p, hp => by simp [keyOrderedMembers] at hp
  | (key,t) :: members, p, hp => by
    rw [keyOrderedMembers] at hp
    rcases List.mem_cons.mp hp with rfl | hp
    · exact t.keyOrdered_keyOrdered
    · exact keyOrdered_of_mem_keyOrderedMembers members p hp

end

end Order

end JsonTree
end EventCore
