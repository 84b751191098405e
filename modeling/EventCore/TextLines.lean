import Mathlib.Data.List.Basic

/-! Text as a list of characters, cut at its first line feed or into lines. A line ends at a line
feed, or at a carriage return before one; the last line may lack its ending. -/
namespace EventCore
namespace TextLines

/-- The text before the first `c` and the text after it. -/
def splitFirst (c : Char) : List Char → Option (List Char × List Char)
  | [] => none
  | x :: xs => if x = c then some ([],xs) else (splitFirst c xs).map fun p => (x :: p.1,p.2)

theorem splitFirst_append {c : Char} {xs : List Char} (h : c ∉ xs) (ys : List Char) :
    splitFirst c (xs ++ c :: ys) = some (xs,ys) := by
  induction xs with
  | nil => simp [splitFirst]
  | cons x xs ih =>
    obtain ⟨hx,hxs⟩ := not_or.mp (mt List.mem_cons.mpr h)
    simp [splitFirst,Ne.symm hx,ih hxs]

/-- The pieces of a text, each up to its line feed, which it keeps. -/
def splitInclusive : List Char → List (List Char)
  | [] => []
  | x :: xs =>
    if x = '\n' then [x] :: splitInclusive xs
    else match splitInclusive xs with
      | [] => [[x]]
      | piece :: pieces => (x :: piece) :: pieces

def stripSuffix (c : Char) (cs : List Char) : Option (List Char) :=
  if cs.getLast? = some c then some cs.dropLast else none

def stripEnding (piece : List Char) : List Char :=
  match stripSuffix '\n' piece with
  | none => piece
  | some line => (stripSuffix '\r' line).getD line

def lines (text : List Char) : List (List Char) := (splitInclusive text).map stripEnding

/-- It is one line, without an ending of its own. -/
def OneLine (line : List Char) : Prop := '\n' ∉ line ∧ line.getLast? ≠ some '\r'

theorem splitInclusive_append {xs : List Char} (h : '\n' ∉ xs) (ys : List Char) :
    splitInclusive (xs ++ '\n' :: ys) = (xs ++ ['\n']) :: splitInclusive ys := by
  induction xs with
  | nil => simp [splitInclusive]
  | cons x xs ih =>
    obtain ⟨hx,hxs⟩ := not_or.mp (mt List.mem_cons.mpr h)
    simp [splitInclusive,Ne.symm hx,ih hxs]

theorem stripEnding_append {line : List Char} (h : line.getLast? ≠ some '\r') :
    stripEnding (line ++ ['\n']) = line := by
  simp [stripEnding,stripSuffix,h]

theorem splitInclusive_of_not_mem {xs : List Char} (h : '\n' ∉ xs) (hne : xs ≠ []) :
    splitInclusive xs = [xs] := by
  induction xs with
  | nil => exact absurd rfl hne
  | cons x xs ih =>
    obtain ⟨hx,hxs⟩ := not_or.mp (mt List.mem_cons.mpr h)
    cases xs with
    | nil => simp [splitInclusive,Ne.symm hx]
    | cons y ys => rw [splitInclusive,if_neg (Ne.symm hx),ih hxs (List.cons_ne_nil y ys)]

theorem lines_append {ls : List (List Char)} (h : ∀ l ∈ ls, OneLine l) (rest : List Char) :
    lines ((ls.flatMap fun l => l ++ ['\n']) ++ rest) = ls ++ lines rest := by
  induction ls with
  | nil => rfl
  | cons l ls ih =>
    obtain ⟨⟨hfeed,hreturn⟩,hls⟩ := List.forall_mem_cons.mp h
    rw [List.flatMap_cons,List.append_assoc,List.append_assoc,List.singleton_append,lines,
      splitInclusive_append hfeed,List.map_cons,stripEnding_append hreturn,← lines,ih hls,
      List.cons_append]

theorem lines_flatMap {ls : List (List Char)} (h : ∀ l ∈ ls, OneLine l) :
    lines (ls.flatMap fun l => l ++ ['\n']) = ls := by
  have happend := lines_append h []
  rw [List.append_nil] at happend
  rw [happend,lines,splitInclusive,List.map_nil,List.append_nil]

theorem lines_of_not_mem {xs : List Char} (h : '\n' ∉ xs) (hne : xs ≠ []) : lines xs = [xs] := by
  have hlast : xs.getLast? ≠ some '\n' := fun hlast => h (List.mem_of_getLast? hlast)
  rw [lines,splitInclusive_of_not_mem h hne,List.map_singleton,stripEnding,stripSuffix,
    if_neg hlast]

theorem take_lines {α : Type} (line : α → List Char) (as : List α) (n : ℕ) :
    ∃ before after part, as = before ++ after ∧
      (as.flatMap fun a => line a ++ ['\n']).take n =
        (before.flatMap fun a => line a ++ ['\n']) ++ part ∧
      (part = [] ∨ ∃ a rest, after = a :: rest ∧ part <+: line a) := by
  induction as generalizing n with
  | nil => exact ⟨[],[],[],rfl,by simp,.inl rfl⟩
  | cons a as ih =>
    rw [List.flatMap_cons]
    rcases Nat.lt_or_ge (line a).length n with hlong | hshort
    · obtain ⟨before,after,part,rfl,htake,hpart⟩ := ih (n-((line a).length+1))
      refine ⟨a :: before,after,part,rfl,?_,hpart⟩
      have hwhole : (line a ++ ['\n']).length ≤ n := by
        rw [List.length_append,List.length_singleton]
        exact hlong
      rw [List.take_append,List.take_of_length_le hwhole,List.length_append,List.length_singleton,
        htake,List.flatMap_cons,List.append_assoc (line a ++ ['\n'])]
    · refine ⟨[],a :: as,(line a).take n,rfl,?_,.inr ⟨a,as,rfl,List.take_prefix n _⟩⟩
      rw [List.append_assoc,List.take_append_of_le_length hshort]
      rfl

/-- Joining with line feeds and ending the last line is to end every line, unless there is none. -/
theorem intercalate_append {l : List Char} (ls : List (List Char)) :
    ['\n'].intercalate (l :: ls) ++ ['\n'] = (l :: ls).flatMap fun l => l ++ ['\n'] := by
  induction ls generalizing l with
  | nil => simp [List.intercalate]
  | cons l' ls ih =>
    rw [List.intercalate_cons_cons,List.append_assoc,List.append_assoc,ih]
    simp only [List.flatMap_cons,List.append_assoc]

theorem lines_intercalate {ls : List (List Char)} (h : ∀ l ∈ ls, OneLine l) :
    lines (['\n'].intercalate ls ++ ['\n']) = if ls = [] then [[]] else ls := by
  cases ls with
  | nil => rfl
  | cons l ls => rw [intercalate_append,lines_flatMap h,if_neg (List.cons_ne_nil l ls)]

section Parts

/-- The text behind `start`. -/
def stripStart (start text : List Char) : Option (List Char) :=
  if start <+: text then some (text.drop start.length) else none

theorem stripStart_append (start rest : List Char) : stripStart start (start ++ rest) = some rest := by
  rw [stripStart,if_pos (List.prefix_append start rest),List.drop_left]

theorem splitFirst_eq_some {c : Char} {text before behind : List Char}
    (h : splitFirst c text = some (before,behind)) : c ∉ before := by
  induction text generalizing before with
  | nil => cases h
  | cons x xs ih =>
    rw [splitFirst] at h
    split_ifs at h with hx
    · obtain ⟨rfl,rfl⟩ := Prod.mk.inj (Option.some.inj h)
      exact List.not_mem_nil
    · obtain ⟨p,hp,he⟩ := Option.map_eq_some_iff.mp h
      obtain ⟨rfl,rfl⟩ := Prod.mk.inj he
      rw [List.mem_cons,not_or]
      exact ⟨Ne.symm hx,ih hp⟩

/-- The text behind the last occurrence of `part`. -/
def afterLast (part : List Char) : List Char → Option (List Char)
  | [] => none
  | c :: cs =>
    match afterLast part cs with
    | some rest => some rest
    | none => if part <+: c :: cs then some ((c :: cs).drop part.length) else none

theorem afterLast_eq_none {part text : List Char} {c : Char} (hc : c ∈ part) (h : c ∉ text) :
    afterLast part text = none := by
  induction text with
  | nil => rfl
  | cons x xs ih =>
    rw [afterLast,ih (fun hmem => h (List.mem_cons_of_mem x hmem))]
    exact if_neg fun hpart => h (hpart.subset hc)

theorem afterLast_append {part text rest : List Char} (h : afterLast part text = some rest)
    (before : List Char) : afterLast part (before ++ text) = some rest := by
  induction before with
  | nil => exact h
  | cons c before ih => rw [List.cons_append,afterLast,ih]

theorem afterLast_of_lt {part text rest : List Char} {c : Char} (hpart : c ∉ part) (hrest : c ∉ rest)
    (hlen : text.length < part.length) : afterLast (part ++ [c]) (text ++ c :: rest) = none := by
  have hnot : ∀ text : List Char, text.length < part.length →
      ¬part ++ [c] <+: text ++ c :: rest := by
    intro text hlen hoccurs
    have hshort : text ++ [c] <+: part := by
      refine List.prefix_of_prefix_length_le ?_
        ((List.prefix_append part [c]).trans hoccurs) ?_
      · exact ⟨rest,by rw [List.append_assoc,List.singleton_append]⟩
      · rw [List.length_append,List.length_singleton]
        exact hlen
    exact hpart (hshort.subset (List.mem_append_right text (List.mem_singleton.mpr rfl)))
  induction text with
  | nil =>
    rw [List.nil_append,afterLast,
      afterLast_eq_none (List.mem_append_right part (List.mem_singleton.mpr rfl)) hrest]
    exact if_neg (hnot [] hlen)
  | cons x text ih =>
    rw [List.cons_append,afterLast,ih (Nat.lt_of_succ_lt hlen)]
    exact if_neg (hnot (x :: text) hlen)

theorem afterLast_self {part rest : List Char} {c : Char} (hpart : c ∉ part) (hrest : c ∉ rest) :
    afterLast (part ++ [c]) (part ++ c :: rest) = some rest := by
  have hsplit : part ++ [c] ++ rest = part ++ c :: rest := by
    rw [List.append_assoc,List.singleton_append]
  have hoccurs : part ++ [c] <+: part ++ c :: rest := ⟨rest,hsplit⟩
  have hdrop : (part ++ c :: rest).drop (part ++ [c]).length = rest := by
    rw [← hsplit,List.drop_left]
  cases part with
  | nil =>
    rw [List.nil_append,List.nil_append,afterLast,
      afterLast_eq_none (List.mem_singleton.mpr rfl) hrest]
    exact (if_pos hoccurs).trans (congrArg some hdrop)
  | cons x part =>
    have hlater : afterLast (x :: part ++ [c]) (part ++ c :: rest) = none :=
      afterLast_of_lt hpart hrest (Nat.lt_succ_self _)
    change afterLast (x :: part ++ [c]) (x :: (part ++ c :: rest)) = some rest
    rw [afterLast,hlater]
    exact (if_pos hoccurs).trans (congrArg some hdrop)

theorem not_mem_toDigits {c : Char} (h : c.isDigit = false) (n : ℕ) : c ∉ Nat.toDigits 10 n := by
  intro hmem
  rw [Nat.isDigit_of_mem_toDigits (by decide) (by decide) hmem] at h
  cases h

end Parts

end TextLines
end EventCore
