import EventCore.Coordination
import EventCore.TransactionFiles

/-! The coordinators that decide by a table: in memory, of the SQLite store, and of lock files.
All of them lead exactly one client under each name. -/
namespace EventCore
namespace ProjectorCoordinators

open Coordination TransactionFiles

/-- `InMemoryProjectorCoordinator` and `InMemoryEventStore`: the map of the names that are led. A
poisoned lock is left out, since nothing panics while it is held. -/
def inMemoryCoordinator : Coordinator (List String) String String Unit := table id

/-- `try_acquire_lock` and `SqliteCoordinationGuard`, which do the same with a set. -/
def sqliteCoordinator : Coordinator (List String) String String Unit := table id

def sanitize (name : String) : String := String.ofList (name.toUTF8.data.toList.flatMap hexByte)

/-- The lock file of a subscription, in the directory of the locks. -/
def lockPath (name : String) : String := sanitize name ++ ".lock"

/-- `FileProjectorCoordinator`: the paths whose files some process has locked. Creating a file
that is there leaves its lock alone, and the guard's file is closed when the guard is dropped
or its process ends. -/
def fileCoordinator : Coordinator (List String) String String Unit := table lockPath

theorem sanitize_injective : Function.Injective sanitize := by
  intro a b h
  have hbytes := hex_injective (String.ofList_injective h)
  exact String.toByteArray_inj.mp (ByteArray.ext (Array.toList_inj.mp hbytes))

theorem lockPath_injective : Function.Injective lockPath := by
  intro a b h
  refine sanitize_injective ?_
  have hlist := congrArg String.toList h
  simp only [lockPath,String.toList_append] at hlist
  exact String.toList_injective (List.append_cancel_right hlist)

section Leaders

variable {Client : Type} [DecidableEq Client] {key : String → String}
  {s : State (List String) Client String String}

theorem rep_of_reachable (h : Runs.Reachable (system (table key) []) s) :
    TableRep key s.coordinator s.leaders :=
  (table_exclusive key).rep_of_reachableBy (tableRep_nil key)
    (h.mono fun _ l _ => by cases l <;> trivial)

theorem exact_of_injective (hkey : Function.Injective key)
    (h : Runs.Reachable (system (table key) []) s) :
    (∀ i j name g g', s.leaders i = some (name,g) → s.leaders j = some (name,g') → i = j) ∧
    ∀ name, ((table key).tryAcquire s.coordinator name ()).1 = none ↔
      ∃ i g, s.leaders i = some (name,g) := by
  have hrep := rep_of_reachable h
  refine ⟨fun i j name g g' hi hj => (table_exclusive key).alone hrep hi hj,fun name => ?_⟩
  rw [hrep.refused_iff]
  refine exists_congr fun i => ?_
  simp only [held,Option.map_eq_some_iff,Prod.exists,exists_eq_right]
  constructor
  · rintro ⟨name',hi⟩
    exact ⟨_,hkey (hrep.key i name' _ hi) ▸ hi⟩
  · rintro ⟨g,hi⟩
    exact ⟨name,hrep.key i name g hi ▸ hi⟩

/-- In every run of any number of clients of one of the coordinators, crashes included, at most one
guard is out for a subscription, and asking for one is refused exactly while a guard is out for that
very name. -/
theorem coordinators_exact {coordinator : Coordinator (List String) String String Unit}
    (hcoordinator : coordinator ∈ [inMemoryCoordinator,sqliteCoordinator,fileCoordinator])
    (h : Runs.Reachable (system coordinator []) s) :
    (∀ i j name g g', s.leaders i = some (name,g) → s.leaders j = some (name,g') → i = j) ∧
    ∀ name, (coordinator.tryAcquire s.coordinator name ()).1 = none ↔
      ∃ i g, s.leaders i = some (name,g) := by
  simp only [List.mem_cons,List.not_mem_nil,or_false] at hcoordinator
  rcases hcoordinator with rfl | rfl | rfl
  · exact exact_of_injective Function.injective_id h
  · exact exact_of_injective Function.injective_id h
  · exact exact_of_injective lockPath_injective h

end Leaders

/-- Two subscriptions whose names differ, one of them asked for twice. -/
theorem coordinators_exact_twice :
    ∃ s, Runs.exec (system fileCoordinator []) ⟨[],fun _ => none⟩
        [.acquire (0 : Fin 3) "a" (),.acquire 1 "a\x00" (),.acquire 2 "a" ()] = some s ∧
      s.coordinator = ["6100.lock","61.lock"] ∧
      (fileCoordinator.tryAcquire s.coordinator "a" ()).1 = none ∧
      ∃ i g, s.leaders i = some ("a",g) := by
  obtain ⟨s,hs,hlocked,hrefused⟩ : ∃ s, Runs.exec (system fileCoordinator []) ⟨[],fun _ => none⟩
      [.acquire (0 : Fin 3) "a" (),.acquire 1 "a\x00" (),.acquire 2 "a" ()] = some s ∧
      s.coordinator = ["6100.lock","61.lock"] ∧
      (fileCoordinator.tryAcquire s.coordinator "a" ()).1 = none := ⟨_,rfl,by decide,by decide⟩
  have hreach := Runs.Reachable.exec (.init rfl) hs
  exact ⟨s,hs,hlocked,hrefused,((coordinators_exact (by simp) hreach).2 "a").mp hrefused⟩

end ProjectorCoordinators
end EventCore
