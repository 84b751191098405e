import EventCore.PagedScan
import Mathlib.Data.List.Nodup
import Mathlib.Data.Nat.Basic

/-! The contract of a projection source: a delivery sequence that producers extend while it is
read, but never at or below a high-water mark that has been reported. -/
namespace EventCore
namespace ProjectionSource
open PagedScan

/-- An event at its delivery position. `P` is all else that the envelope carries. -/
structure PersistedEventEnvelope (P : Type) where
  position : ℕ
  payload : P

inductive DeliveryUpperBound
  | inclusive (through : ℕ)
  | unbounded

def DeliveryUpperBound.allows : DeliveryUpperBound → ℕ → Bool
  | .inclusive through,position => decide (position ≤ through)
  | .unbounded,_ => true

/-- The committed deliveries in order; `sealed` is the highest mark reported so far. -/
structure Log (P : Type) where
  visible : List (PersistedEventEnvelope P) := []
  sealed : ℕ := 0

variable {P : Type}

namespace Log

structure Valid (log : Log P) : Prop where
  ascending : log.visible.Pairwise fun e f => e.position < f.position
  positive : ∀ e ∈ log.visible, 0 < e.position

/-- A delivery becomes visible, at any free position above the reported mark. -/
def deliver (log : Log P) (e : PersistedEventEnvelope P) : Option (Log P) :=
  if log.sealed < e.position ∧ e.position ∉ log.visible.map (·.position) then
    some { log with visible :=
      (log.visible.filter fun f => f.position < e.position) ++
        e :: log.visible.filter fun f => e.position < f.position }
  else none

def highWatermark (log : Log P) : Option ℕ := log.visible.getLast?.map (·.position)

def reporting (log : Log P) : Log P :=
  { log with sealed := max log.sealed (log.highWatermark.getD 0) }

def within (log : Log P) (selects : PersistedEventEnvelope P → Bool) (after : Option ℕ)
    (through : DeliveryUpperBound) : List (PersistedEventEnvelope P) :=
  (log.visible.filter fun e => selects e && through.allows e.position).filter
    fun e => After after e.position

/-- A page is what comes first of the selection, `size` envelopes of it: at most `limit`, and none
only when there are none or none are asked for. -/
def readEnvelopes (log : Log P) (selects : PersistedEventEnvelope P → Bool) (after : Option ℕ)
    (through : DeliveryUpperBound) (limit size : ℕ) : Option (List (PersistedEventEnvelope P)) :=
  let selected := log.within selects after through
  if size ≤ limit ∧ (size = 0 → limit = 0 ∨ selected = []) then some (selected.take size)
  else none

/-- What readers may rely on: up to the reported mark nothing changes any more. -/
structure Grows (log log' : Log P) : Prop where
  sealed_le : log.sealed ≤ log'.sealed
  frozen : (log'.visible.filter fun e => e.position ≤ log.sealed) =
    log.visible.filter fun e => e.position ≤ log.sealed

theorem Grows.refl (log : Log P) : log.Grows log := ⟨le_rfl,rfl⟩

theorem filter_le_of_le {l l' : List (PersistedEventEnvelope P)} {m n : ℕ} (hmn : m ≤ n)
    (h : (l.filter fun e => e.position ≤ n) = l'.filter fun e => e.position ≤ n) :
    (l.filter fun e => e.position ≤ m) = l'.filter fun e => e.position ≤ m := by
  have hfilter : ∀ k : List (PersistedEventEnvelope P),
      (k.filter fun e => e.position ≤ m) =
        (k.filter fun e => e.position ≤ n).filter fun e => e.position ≤ m := by
    intro k
    rw [List.filter_filter]
    congr 1
    funext e
    by_cases he : e.position ≤ m
    · simp [he,he.trans hmn]
    · simp [he]
  rw [hfilter l,hfilter l',h]

theorem Grows.trans {a b c : Log P} (hab : a.Grows b) (hbc : b.Grows c) : a.Grows c :=
  ⟨hab.sealed_le.trans hbc.sealed_le,
    (filter_le_of_le hab.sealed_le hbc.frozen).trans hab.frozen⟩

theorem deliver_valid {log log' : Log P} {e : PersistedEventEnvelope P} (h : log.Valid)
    (hdeliver : log.deliver e = some log') : log'.Valid := by
  unfold deliver at hdeliver
  split_ifs at hdeliver with hfree
  cases hdeliver
  constructor
  · refine List.pairwise_append.mpr ⟨h.ascending.filter _,?_,?_⟩
    · refine List.pairwise_cons.mpr ⟨?_,h.ascending.filter _⟩
      intro f hf
      simpa using (List.mem_filter.mp hf).2
    · intro f hf g hg
      have hlt : f.position < e.position := by simpa using (List.mem_filter.mp hf).2
      rcases List.mem_cons.mp hg with rfl | hg
      · exact hlt
      · exact hlt.trans (by simpa using (List.mem_filter.mp hg).2)
  · intro f hf
    simp only [List.mem_append,List.mem_filter,List.mem_cons] at hf
    rcases hf with ⟨hf,_⟩ | rfl | ⟨hf,_⟩
    · exact h.positive f hf
    · omega
    · exact h.positive f hf

theorem deliver_grows {log log' : Log P} {e : PersistedEventEnvelope P}
    (hdeliver : log.deliver e = some log') : log.Grows log' := by
  unfold deliver at hdeliver
  split_ifs at hdeliver with hfree
  cases hdeliver
  refine ⟨le_rfl,?_⟩
  have hbelow : (log.visible.filter fun f => f.position < e.position).filter
      (fun f => f.position ≤ log.sealed) = log.visible.filter fun f => f.position ≤ log.sealed := by
    rw [List.filter_filter]
    congr 1
    funext f
    by_cases hf : f.position ≤ log.sealed
    · simp [hf,hf.trans_lt hfree.1]
    · simp [hf]
  have habove : (log.visible.filter fun f => e.position < f.position).filter
      (fun f => f.position ≤ log.sealed) = [] := by
    rw [List.filter_eq_nil_iff]
    intro f hf
    have hlt : e.position < f.position := by simpa using (List.mem_filter.mp hf).2
    simp
    omega
  have he : ¬ e.position ≤ log.sealed := by omega
  simp [List.filter_append,hbelow,habove,he]

theorem reporting_grows (log : Log P) : log.Grows log.reporting := ⟨le_max_left _ _,rfl⟩

theorem reporting_valid {log : Log P} (h : log.Valid) : log.reporting.Valid :=
  ⟨h.ascending,h.positive⟩

theorem highWatermark_le_sealed {log : Log P} {p : ℕ} (h : log.highWatermark = some p) :
    p ≤ log.reporting.sealed := by
  unfold reporting
  rw [h]
  exact le_max_right _ _

section Within

variable {selects : PersistedEventEnvelope P → Bool} {after : Option ℕ}
  {through : DeliveryUpperBound} {log : Log P}

theorem mem_within {e : PersistedEventEnvelope P} : e ∈ log.within selects after through ↔
    e ∈ log.visible ∧ selects e = true ∧ through.allows e.position = true ∧
      After after e.position := by
  simp only [within,List.mem_filter,Bool.and_eq_true,decide_eq_true_eq]
  tauto

theorem within_ascending (h : log.Valid) :
    (log.within selects after through).Pairwise fun e f => e.position < f.position :=
  (h.ascending.filter _).filter _

theorem Grows.within_eq {log' : Log P} {mark : ℕ} (h : log.Grows log')
    (hmark : mark ≤ log.sealed) : log'.within selects after (.inclusive mark) =
      log.within selects after (.inclusive mark) := by
  have hsplit : ∀ l : Log P, l.within selects after (.inclusive mark) =
      ((l.visible.filter fun e => e.position ≤ mark).filter selects).filter
        fun e => After after e.position := by
    intro l
    unfold within
    congr 1
    rw [List.filter_filter]
    rfl
  rw [hsplit,hsplit,filter_le_of_le hmark h.frozen]

theorem within_after (h : log.Valid) {e : PersistedEventEnvelope P}
    {rest : List (PersistedEventEnvelope P)}
    (hrest : log.within selects after through = e :: rest) :
    log.within selects (some e.position) through = rest :=
  remaining_after (l := []) (h.ascending.filter _) hrest

theorem head_le_of_within (h : log.Valid) {e f : PersistedEventEnvelope P}
    {rest : List (PersistedEventEnvelope P)}
    (hrest : log.within selects after through = e :: rest)
    (hf : f ∈ log.within selects after through) : e.position ≤ f.position := by
  have hpair : (e :: rest).Pairwise fun e f => e.position < f.position :=
    hrest ▸ within_ascending h
  rw [hrest] at hf
  rcases List.mem_cons.mp hf with rfl | hf
  · exact le_rfl
  · exact ((List.pairwise_cons.mp hpair).1 f hf).le

theorem ascending_ext {l l' : List (PersistedEventEnvelope P)}
    (hl : l.Pairwise fun e f => e.position < f.position)
    (hl' : l'.Pairwise fun e f => e.position < f.position) (h : ∀ e, e ∈ l ↔ e ∈ l') : l = l' := by
  have hperm : l.Perm l' := (List.perm_ext_iff_of_nodup (hl.imp fun hlt => ?_)
    (hl'.imp fun hlt => ?_)).mpr h
  · exact hperm.eq_of_pairwise (fun _ _ _ _ hab hba => absurd (hab.trans hba) (lt_irrefl _)) hl hl'
  all_goals
    rintro rfl
    exact lt_irrefl _ hlt

/-- The next selected delivery extends what is selected up to the one before by itself. -/
theorem within_next (h : log.Valid) {e : PersistedEventEnvelope P} {q : ℕ}
    (he : e ∈ log.visible) (hselects : selects e = true) (hq : q < e.position)
    (hnext : ∀ f ∈ log.visible, selects f = true → q < f.position → e.position ≤ f.position) :
    log.within selects none (.inclusive e.position) =
      log.within selects none (.inclusive q) ++ [e] := by
  apply ascending_ext (within_ascending h)
  · refine List.pairwise_append.mpr ⟨within_ascending h,List.pairwise_singleton _ _,?_⟩
    intro f hf g hg
    obtain rfl := List.mem_singleton.mp hg
    have hle : f.position ≤ q := by simpa [DeliveryUpperBound.allows] using (mem_within.mp hf).2.2
    exact hle.trans_lt hq
  · intro f
    simp only [mem_within,DeliveryUpperBound.allows,decide_eq_true_eq,after_none,and_true,
      List.mem_append,List.mem_singleton]
    constructor
    · rintro ⟨hf,hsel,hle⟩
      by_cases hfq : f.position ≤ q
      · exact .inl ⟨hf,hsel,hfq⟩
      · have heq : f.position = e.position := le_antisymm hle (hnext f hf hsel (by omega))
        have hnodup : (log.visible.map (·.position)).Nodup :=
          List.pairwise_map.mpr (h.ascending.imp fun hlt => hlt.ne)
        exact .inr (List.inj_on_of_nodup_map hnodup hf he heq)
    · rintro (⟨hf,hsel,hle⟩ | rfl)
      · exact ⟨hf,hsel,by omega⟩
      · exact ⟨he,hselects,le_rfl⟩

end Within

theorem readEnvelopes_eq_some {log : Log P} {selects : PersistedEventEnvelope P → Bool}
    {after : Option ℕ} {through : DeliveryUpperBound} {limit size : ℕ}
    {page : List (PersistedEventEnvelope P)}
    (h : log.readEnvelopes selects after through limit size = some page) :
    page <+: log.within selects after through ∧ page.length ≤ limit ∧
      (page = [] → limit = 0 ∨ log.within selects after through = []) := by
  unfold readEnvelopes at h
  simp only at h
  split_ifs at h with hsize
  cases h
  refine ⟨List.take_prefix _ _,(List.length_take_le _ _).trans hsize.1,fun hnil => ?_⟩
  rcases List.take_eq_nil_iff.mp hnil with h0 | hnil
  · exact hsize.2 h0
  · exact .inr hnil

end Log

end ProjectionSource
end EventCore
