import EventCore.TextLines
import EventCore.Types

/-! The message in which the version trigger of the Postgres store raises a conflict, and the parser
that takes it apart. The stream id stands in it between quotes as it is. -/
namespace EventCore
namespace ConflictMessage
open TextLines

section Message

def unknownConflictStream : StreamId :=
  ⟨"unknown-conflict-stream",by decide,by decide,by decide,by decide⟩

/-- `RAISE EXCEPTION` of the trigger. -/
def versionConflictMessage (streamId : StreamId) (expectedVersion currentMaxVersion : ℕ) : String :=
  String.ofList ("version_conflict: stream \"".toList ++ (streamId.value.toList ++
    ("\" expected version ".toList ++ (Nat.toDigits 10 expectedVersion ++
      (", actual ".toList ++ Nat.toDigits 10 currentMaxVersion)))))

def unsigned : List Char → List Char
  | '+' :: digits => digits
  | digits => digits

/-- `str::parse::<usize>`: decimal digits, with a plus sign or without. -/
def parseUsize (text : List Char) : Option ℕ :=
  let digits := unsigned text
  if digits ≠ [] ∧ digits.all Char.isDigit ∧ Nat.ofDigitChars 10 digits 0 < 2^64 then
    some (Nat.ofDigitChars 10 digits 0)
  else none

def tryParseConflictMessage (message : String) : Option EventStoreError := do
  let rest ← stripStart "version_conflict: stream \"".toList message.toList
  let (streamIdStr,behind) ← splitFirst '"' rest
  let afterStream := '"' :: behind
  let expectedStr ← stripStart "\" expected version ".toList afterStream
  let actualStr := (afterLast "actual ".toList afterStream).getD afterStream
  let expected ← parseUsize (trimChars (expectedStr.takeWhile (· ≠ ',')))
  let actual ← parseUsize (trimChars actualStr)
  match StreamId.tryNew (String.ofList streamIdStr) with
  | .ok streamId => some (.versionConflict streamId expected actual)
  | .error _ => none

/-- A message that is not understood names a stream that stands for no stream. -/
def parseVersionConflictFromDbError (message : String) : EventStoreError :=
  match tryParseConflictMessage message with
  | some parsed => parsed
  | none => .versionConflict unknownConflictStream 0 0

end Message

section Digits

theorem not_isWhitespace_of_isDigit {c : Char} (h : c.isDigit = true) : isWhitespace c = false := by
  have hrange : 48 ≤ c.toNat ∧ c.toNat ≤ 57 := by
    simpa [Char.isDigit,UInt32.le_iff_toNat_le] using h
  simp only [isWhitespace]
  grind

theorem trimChars_toDigits (n : ℕ) : trimChars (Nat.toDigits 10 n) = Nat.toDigits 10 n := by
  have hnone : ∀ c ∈ Nat.toDigits 10 n, isWhitespace c = false := fun c hc =>
    not_isWhitespace_of_isDigit (Nat.isDigit_of_mem_toDigits (by decide) (by decide) hc)
  have hdrop : (Nat.toDigits 10 n).dropWhile isWhitespace = Nat.toDigits 10 n := by
    rw [List.dropWhile_eq_self_iff]
    intro hlen hspace
    rw [hnone _ (List.getElem_mem hlen)] at hspace
    cases hspace
  rw [trimChars,hdrop,List.rdropWhile_eq_self_iff]
  intro hne hspace
  rw [hnone _ (List.getLast_mem hne)] at hspace
  cases hspace

theorem unsigned_of_not_mem {text : List Char} (h : '+' ∉ text) : unsigned text = text := by
  unfold unsigned
  split
  · exact absurd List.mem_cons_self h
  · rfl

theorem parseUsize_toDigits {n : ℕ} (h : n < 2^64) : parseUsize (Nat.toDigits 10 n) = some n := by
  have hdigits : (Nat.toDigits 10 n).all Char.isDigit = true :=
    List.all_eq_true.mpr fun c hc => Nat.isDigit_of_mem_toDigits (by decide) (by decide) hc
  rw [parseUsize,unsigned_of_not_mem (not_mem_toDigits (by decide) n)]
  simp only [Nat.ofDigitChars_ten_toDigits]
  exact if_pos ⟨Nat.toDigits_ne_nil,hdigits,h⟩

theorem parseUsize_trimChars {n : ℕ} (h : n < 2^64) :
    parseUsize (trimChars (Nat.toDigits 10 n)) = some n := by
  rw [trimChars_toDigits,parseUsize_toDigits h]

end Digits

section Quotes

variable {streamId : StreamId} {expected actual : ℕ}

theorem takeWhile_expected (expected : ℕ) (rest : List Char) :
    (Nat.toDigits 10 expected ++ (", actual ".toList ++ rest)).takeWhile (· ≠ ',') =
      Nat.toDigits 10 expected := by
  have hdigits : ∀ c ∈ Nat.toDigits 10 expected, decide (c ≠ ',') = true := fun c hc =>
    decide_eq_true fun hcomma => not_mem_toDigits (by decide) expected (hcomma ▸ hc)
  rw [List.takeWhile_append_of_pos hdigits]
  exact List.append_nil _

/-- The last `actual ` is the one before the actual version. -/
theorem afterLast_actual (before : List Char) (actual : ℕ) :
    afterLast "actual ".toList (before ++ ("actual ".toList ++ Nat.toDigits 10 actual)) =
      some (Nat.toDigits 10 actual) := by
  have hspace : ' ' ∉ Nat.toDigits 10 actual := not_mem_toDigits (by decide) actual
  have hpart : "actual ".toList = "actual".toList ++ [' '] := by decide
  rw [hpart,List.append_assoc,List.singleton_append]
  exact afterLast_append (afterLast_self (by decide) hspace) before

theorem quote_expected :
    "\" expected version ".toList = '"' :: " expected version ".toList := by decide

/-- The message behind the first quote, as far as the one that ends the stream id. -/
theorem stripStart_message (streamId : StreamId) (expected actual : ℕ) :
    stripStart "version_conflict: stream \"".toList
      (versionConflictMessage streamId expected actual).toList =
        some (streamId.value.toList ++ '"' :: (" expected version ".toList ++
          (Nat.toDigits 10 expected ++ (", actual ".toList ++ Nat.toDigits 10 actual)))) := by
  have htext : (versionConflictMessage streamId expected actual).toList =
      "version_conflict: stream \"".toList ++ (streamId.value.toList ++
        ("\" expected version ".toList ++ (Nat.toDigits 10 expected ++
          (", actual ".toList ++ Nat.toDigits 10 actual)))) := String.toList_ofList
  rw [htext,stripStart_append,quote_expected,List.cons_append]

theorem stripStart_expected (rest : List Char) :
    stripStart "\" expected version ".toList ('"' :: (" expected version ".toList ++ rest)) =
      some rest := by
  have hstrip := stripStart_append "\" expected version ".toList rest
  rwa [quote_expected,List.cons_append,← quote_expected] at hstrip

theorem afterLast_versions (expected actual : ℕ) :
    afterLast "actual ".toList ('"' :: (" expected version ".toList ++
      (Nat.toDigits 10 expected ++ (", actual ".toList ++ Nat.toDigits 10 actual)))) =
        some (Nat.toDigits 10 actual) := by
  have hcomma : ", actual ".toList = [',',' '] ++ "actual ".toList := by decide
  have hlast := afterLast_actual
    ('"' :: (" expected version ".toList ++ (Nat.toDigits 10 expected ++ [',',' ']))) actual
  rw [List.cons_append,List.append_assoc,List.append_assoc] at hlast
  rwa [hcomma,List.append_assoc]

theorem tryParse_versionConflictMessage (h : '"' ∉ streamId.value.toList)
    (hexpected : expected < 2^64) (hactual : actual < 2^64) :
    tryParseConflictMessage (versionConflictMessage streamId expected actual) =
      some (.versionConflict streamId expected actual) := by
  rw [tryParseConflictMessage,stripStart_message,Option.bind_eq_bind,Option.bind_some,
    splitFirst_append h]
  simp only [Option.bind_eq_bind,Option.bind_some,stripStart_expected,afterLast_versions,
    Option.getD_some,takeWhile_expected,parseUsize_trimChars hexpected,
    parseUsize_trimChars hactual,String.ofList_toList,StreamId.tryNew_value]

end Quotes

section Reported

theorem tryParse_eq_some {message : String} {parsed : EventStoreError}
    (h : tryParseConflictMessage message = some parsed) :
    ∃ streamId expected actual, parsed = .versionConflict streamId expected actual ∧
      '"' ∉ streamId.value.toList := by
  obtain ⟨rest,_,h⟩ := Option.bind_eq_some_iff.mp h
  obtain ⟨⟨streamIdStr,behind⟩,hsplit,h⟩ := Option.bind_eq_some_iff.mp h
  obtain ⟨expectedStr,_,h⟩ := Option.bind_eq_some_iff.mp h
  obtain ⟨expected,_,h⟩ := Option.bind_eq_some_iff.mp h
  obtain ⟨actual,_,h⟩ := Option.bind_eq_some_iff.mp h
  cases hstreamId : StreamId.tryNew (String.ofList streamIdStr) with
  | error _ =>
    simp only [hstreamId] at h
    cases h
  | ok streamId =>
    simp only [hstreamId] at h
    refine ⟨streamId,expected,actual,(Option.some.inj h).symm,fun hquote => ?_⟩
    rw [StreamId.value_of_tryNew hstreamId] at hquote
    have hmem := mem_of_mem_trim hquote
    rw [String.toList_ofList] at hmem
    exact splitFirst_eq_some hsplit hmem

theorem parseVersionConflict_not_mem (message : String) :
    ∃ streamId expected actual,
      parseVersionConflictFromDbError message = .versionConflict streamId expected actual ∧
        '"' ∉ streamId.value.toList := by
  unfold parseVersionConflictFromDbError
  cases hparse : tryParseConflictMessage message with
  | none => exact ⟨unknownConflictStream,0,0,rfl,by decide⟩
  | some parsed => exact tryParse_eq_some hparse

/-- The details of a conflict come back exactly when the stream id holds no quote. -/
theorem details_survive_iff (streamId : StreamId) (expected actual : UInt64) :
    parseVersionConflictFromDbError
        (versionConflictMessage streamId expected.toNat actual.toNat) =
      .versionConflict streamId expected.toNat actual.toNat ↔ '"' ∉ streamId.value.toList := by
  constructor
  · intro hparse
    obtain ⟨reported,_,_,hreported,hquote⟩ := parseVersionConflict_not_mem
      (versionConflictMessage streamId expected.toNat actual.toNat)
    rw [hparse] at hreported
    obtain ⟨rfl,_,_⟩ := EventStoreError.versionConflict.inj hreported
    exact hquote
  · intro hquote
    rw [parseVersionConflictFromDbError,
      tryParse_versionConflictMessage hquote expected.toNat_lt actual.toNat_lt]

def quoted : StreamId := ⟨"order \"7\"",by decide,by decide,by decide,by decide⟩

theorem quoted_unknown :
    parseVersionConflictFromDbError (versionConflictMessage quoted 0 1) =
        .versionConflict unknownConflictStream 0 0 ∧
      ¬∀ (streamId : StreamId) (expected actual : UInt64),
        parseVersionConflictFromDbError
            (versionConflictMessage streamId expected.toNat actual.toNat) =
          .versionConflict streamId expected.toNat actual.toNat := by
  have hunknown : parseVersionConflictFromDbError (versionConflictMessage quoted 0 1) =
      .versionConflict unknownConflictStream 0 0 := by decide +kernel
  refine ⟨hunknown,fun hexact => ?_⟩
  have hquoted := hexact quoted 0 1
  rw [show (0 : UInt64).toNat = 0 from rfl,show (1 : UInt64).toNat = 1 from rfl,hunknown] at hquoted
  exact absurd (EventStoreError.versionConflict.inj hquoted).1 (by decide)

end Reported

end ConflictMessage
end EventCore
