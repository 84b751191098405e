import EventCore.PostgresStore

/-! Tables whose streams are numbered from one without gaps, and how rows are added to them. -/
namespace EventCore
namespace StreamVersions
open SqliteStore

variable {Any Raw : Type}

/-- The versions of every stream, in the order of the rows, are 1 to n. -/
def Contiguous (table : Table Raw) : Prop :=
  ∀ streamId, (rowsOf table streamId).map Row.streamVersion =
    List.range' 1 (rowsOf table streamId).length

theorem contiguous_nil : Contiguous ([] : Table Raw) := fun _ => rfl

theorem foldl_max_range' (n : ℕ) : (List.range' 1 n).foldl max 0 = n := by
  induction n with
  | zero => rfl
  | succ n ih =>
    rw [List.range'_concat,List.foldl_append,ih]
    simp
    omega

theorem Contiguous.currentVersion_eq {table : Table Raw} (h : Contiguous table)
    (streamId : String) : currentVersion table streamId = (rowsOf table streamId).length := by
  have hfold : currentVersion table streamId =
      ((rowsOf table streamId).map Row.streamVersion).foldl max 0 := by
    rw [List.foldl_map]
    rfl
  rw [hfold,h streamId,foldl_max_range']

theorem Contiguous.concat {table : Table Raw} {row : Row Raw} (h : Contiguous table)
    (hversion : row.streamVersion = currentVersion table row.streamId + 1) :
    Contiguous (table ++ [row]) := by
  intro streamId
  rw [rowsOf_append]
  by_cases hstream : row.streamId = streamId
  · have hrow : rowsOf [row] streamId = [row] := by simp [rowsOf,hstream]
    rw [hrow,List.map_append,h streamId,List.length_append,List.length_singleton,
      List.range'_concat,List.map_singleton,hversion,hstream,h.currentVersion_eq,Nat.add_comm 1]
    simp
  · have hrow : rowsOf [row] streamId = [] := by simp [rowsOf,hstream]
    rw [hrow,List.append_nil]
    exact h streamId

/-- The rows behind a contiguous beginning are numbered on from it. -/
theorem Contiguous.append_versions {table rows : Table Raw} (h : Contiguous table)
    (hrows : Contiguous (table ++ rows)) (streamId : String) :
    (rowsOf rows streamId).map Row.streamVersion =
      List.range' (currentVersion table streamId + 1) (rowsOf rows streamId).length := by
  have hwhole := hrows streamId
  rw [rowsOf_append,List.map_append,h streamId,List.length_append,← List.range'_append_1,
    List.append_cancel_left_eq] at hwhole
  rw [hwhole,h.currentVersion_eq,Nat.add_comm]

end StreamVersions
end EventCore
