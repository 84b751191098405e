import Mathlib.Data.List.Basic

/-! What a store of streams is for: every key has a list of payloads, and a batch that names the
length it has seen of each of its streams is added as a whole or not at all. -/
namespace EventCore
namespace StreamStore

variable {K P : Type*} [DecidableEq K]

abbrev Contents (K P : Type*) := K → List P

structure Batch (K P : Type*) where
  expected : List (K × ℕ)
  entries : List (K × P)

namespace Batch

def payloads (batch : Batch K P) (k : K) : List P :=
  (batch.entries.filter fun entry => entry.1 = k).map Prod.snd

def Current (batch : Batch K P) (contents : Contents K P) : Prop :=
  ∀ p ∈ batch.expected, (contents p.1).length = p.2

instance (batch : Batch K P) (contents : Contents K P) : Decidable (batch.Current contents) :=
  inferInstanceAs (Decidable (∀ p ∈ _, _))

end Batch

def append (contents : Contents K P) (batch : Batch K P) : Contents K P :=
  if batch.Current contents then fun k => contents k ++ batch.payloads k else contents

variable {contents : Contents K P} {batch : Batch K P}

theorem append_of_current (h : batch.Current contents) :
    append contents batch = fun k => contents k ++ batch.payloads k := if_pos h

theorem append_of_not_current (h : ¬ batch.Current contents) : append contents batch = contents :=
  if_neg h

end StreamStore
end EventCore
