import EventCore.Types
import Mathlib.Data.Nat.Bitwise
import Mathlib.Data.Nat.ModEq

/-! The advisory lock key of a subscription is a 64-bit FNV-1a hash of its name. Names that
differ only within four consecutive bytes never share a key. -/
namespace EventCore
namespace AdvisoryKeys

def FNV_OFFSET_BASIS : UInt64 := 0xcbf29ce484222325

def FNV_PRIME : UInt64 := 0x00000100000001B3

/-- One round: `hash ^= byte` and `hash.wrapping_mul(FNV_PRIME)`. -/
def round (hash : UInt64) (byte : UInt8) : UInt64 := (hash ^^^ byte.toUInt64)*FNV_PRIME

def advisoryLockKey (subscriptionName : String) : Int64 :=
  (subscriptionName.toUTF8.data.toList.foldl round FNV_OFFSET_BASIS).toInt64

section Rounds

theorem round_injective (byte : UInt8) : Function.Injective fun hash => round hash byte := by
  intro g h heq
  have hinverse : FNV_PRIME*0xce965057aff6957b = 1 := by decide
  have hcancel : ∀ x : UInt64, x*FNV_PRIME*0xce965057aff6957b = x := by
    intro x
    rw [UInt64.mul_assoc,hinverse,UInt64.mul_one]
  have hxor : g ^^^ byte.toUInt64 = h ^^^ byte.toUInt64 := by
    have h' := congrArg (· * (0xce965057aff6957b : UInt64)) heq
    simpa only [round,hcancel] using h'
  exact (UInt64.xor_left_inj _).mp hxor

theorem foldl_round_injective (bytes : List UInt8) :
    Function.Injective fun hash => bytes.foldl round hash := by
  induction bytes with
  | nil => exact fun _ _ h => h
  | cons byte bytes ih => exact fun _ _ h => round_injective byte (ih h)

end Rounds

section Window

/-- A round without its overflow, for the low forty bits: there the prime is 435. -/
def shadow (x : ℕ) (byte : UInt8) : ℕ := (x ^^^ byte.toNat)*435

theorem low_round (hash : UInt64) (byte : UInt8) :
    (round hash byte).toNat % 2^40 = shadow hash.toNat byte % 2^40 := by
  rw [round,UInt64.toNat_mul,UInt64.toNat_xor,UInt8.toNat_toUInt64,
    Nat.mod_mod_of_dvd _ ⟨2^24,by decide⟩,shadow,Nat.mul_mod,
    show FNV_PRIME.toNat % 2^40 = 435 from by decide]
  exact Nat.mod_mul_mod ..

theorem xor_div (x : ℕ) (byte : UInt8) : (x ^^^ byte.toNat)/256 = x/256 := by
  have h := Nat.xor_div_two_pow (a := x) (b := byte.toNat) (n := 8)
  have hbyte := byte.toNat_lt
  rwa [show byte.toNat/2^8 = 0 from Nat.div_eq_of_lt hbyte,Nat.xor_zero] at h

theorem shadow_mod (x : ℕ) (byte : UInt8) : shadow (x % 2^40) byte % 2^40 = shadow x byte % 2^40 := by
  have hbyte : byte.toNat % 2^40 = byte.toNat :=
    Nat.mod_eq_of_lt (byte.toNat_lt.trans (by decide))
  have hxor : (x % 2^40) ^^^ byte.toNat = (x ^^^ byte.toNat) % 2^40 := by
    rw [Nat.xor_mod_two_pow,hbyte]
  rw [shadow,hxor,Nat.mod_mul_mod]
  rfl

theorem low_foldl (bytes : List UInt8) {hash : UInt64} {x : ℕ}
    (h : hash.toNat % 2^40 = x % 2^40) :
    (bytes.foldl round hash).toNat % 2^40 = bytes.foldl shadow x % 2^40 := by
  induction bytes generalizing hash x with
  | nil => exact h
  | cons byte bytes ih =>
    refine ih ?_
    rw [low_round,← shadow_mod,h,shadow_mod]

theorem dvd_foldl_shadow (x : ℕ) (bytes : List UInt8) (byte : UInt8) :
    435 ∣ (bytes ++ [byte]).foldl shadow x := by
  rw [List.foldl_concat]
  exact ⟨_,Nat.mul_comm ..⟩

theorem foldl_shadow_injective {x : ℕ} {bytes bytes' : List UInt8}
    (hlength : bytes.length = bytes'.length) (h : bytes.foldl shadow x = bytes'.foldl shadow x) :
    bytes = bytes' := by
  induction bytes using List.reverseRecOn generalizing bytes' with
  | nil => exact (List.length_eq_zero_iff.mp hlength.symm).symm
  | append_singleton bytes byte ih =>
    rcases List.eq_nil_or_concat bytes' with rfl | ⟨bytes',byte',rfl⟩
    · simp at hlength
    · rw [List.concat_eq_append] at hlength h ⊢
      rw [List.length_append,List.length_append,List.length_singleton,List.length_singleton] at hlength
      have hlength : bytes.length = bytes'.length := by omega
      rw [List.foldl_concat,List.foldl_concat] at h
      have hxor := Nat.eq_of_mul_eq_mul_right (by decide) h
      -- the states before are multiples of 435, too close to be different ones
      have hsame : bytes.foldl shadow x = bytes'.foldl shadow x := by
        have hdiv : bytes.foldl shadow x/256 = bytes'.foldl shadow x/256 := by
          rw [← xor_div _ byte,hxor,xor_div]
        rcases List.eq_nil_or_concat bytes with rfl | ⟨l,e,rfl⟩
        · rw [List.length_eq_zero_iff.mp hlength.symm]
        · rcases List.eq_nil_or_concat bytes' with rfl | ⟨l',e',rfl⟩
          · simp at hlength
          · have hdvd := dvd_foldl_shadow x l e
            have hdvd' := dvd_foldl_shadow x l' e'
            rw [List.concat_eq_append,List.concat_eq_append] at hdiv ⊢
            omega
      rw [hsame] at hxor
      have hbyte := Nat.xor_right_injective hxor
      rw [ih hlength hsame,UInt8.toNat_inj.mp hbyte]

def spread : ℕ → ℕ
  | 0 => 0
  | n + 1 => 435*(spread n+510)

theorem foldl_shadow_le {x : ℕ} {bytes bytes' : List UInt8}
    (hlength : bytes.length = bytes'.length) :
    bytes.foldl shadow x ≤ bytes'.foldl shadow x+spread bytes.length := by
  induction bytes using List.reverseRecOn generalizing bytes' with
  | nil =>
    rw [List.length_eq_zero_iff.mp hlength.symm]
    exact Nat.le_add_right ..
  | append_singleton bytes byte ih =>
    rcases List.eq_nil_or_concat bytes' with rfl | ⟨bytes',byte',rfl⟩
    · simp at hlength
    · rw [List.concat_eq_append] at hlength ⊢
      rw [List.length_append,List.length_append,List.length_singleton,List.length_singleton] at hlength
      have hle := ih (show bytes.length = bytes'.length by omega)
      have hdiv := xor_div (bytes.foldl shadow x) byte
      have hdiv' := xor_div (bytes'.foldl shadow x) byte'
      rw [List.foldl_concat,List.foldl_concat,List.length_append,List.length_singleton,shadow,
        shadow,spread]
      omega

theorem foldl_round_window {hash : UInt64} {bytes bytes' : List UInt8}
    (hlength : bytes.length = bytes'.length) (hwindow : bytes.length ≤ 4)
    (h : bytes.foldl round hash = bytes'.foldl round hash) : bytes = bytes' := by
  refine foldl_shadow_injective (x := hash.toNat) hlength ?_
  have hlow : bytes.foldl shadow hash.toNat % 2^40 = bytes'.foldl shadow hash.toNat % 2^40 := by
    rw [← low_foldl bytes (Eq.refl (hash.toNat % 2^40)),h,low_foldl bytes' rfl]
  rcases List.eq_nil_or_concat bytes with rfl | ⟨l,e,rfl⟩
  · rw [List.length_eq_zero_iff.mp hlength.symm]
  · rcases List.eq_nil_or_concat bytes' with rfl | ⟨l',e',rfl⟩
    · simp at hlength
    · simp only [List.concat_eq_append,List.length_append,List.length_singleton,
        List.foldl_concat] at hlength hwindow hlow ⊢
      have hle := foldl_shadow_le (x := hash.toNat) (show l.length = l'.length by omega)
      have hle' := foldl_shadow_le (x := hash.toNat) (show l'.length = l.length by omega)
      have hspread : ∀ n, n ≤ 3 → spread n ≤ 43000000000 := by decide
      have hclose := hspread l.length (by omega)
      have hclose' := hspread l'.length (by omega)
      have hdiv := xor_div (l.foldl shadow hash.toNat) e
      have hdiv' := xor_div (l'.foldl shadow hash.toNat) e'
      have hmod : (l.foldl shadow hash.toNat ^^^ e.toNat) % 2^40 =
          (l'.foldl shadow hash.toNat ^^^ e'.toNat) % 2^40 :=
        Nat.ModEq.cancel_right_of_coprime (by decide) hlow
      rw [shadow,shadow,show l.foldl shadow hash.toNat ^^^ e.toNat =
        l'.foldl shadow hash.toNat ^^^ e'.toNat by omega]

end Window

/-- Subscriptions whose names are equally long in bytes and differ only within four consecutive
ones, such as by one character or by a number of up to four digits, never share a lock key. -/
theorem lock_keys_apart {a b : String} {before inside inside' after : List UInt8}
    (ha : a.toUTF8.data.toList = before ++ inside ++ after)
    (hb : b.toUTF8.data.toList = before ++ inside' ++ after)
    (hlength : inside.length = inside'.length) (hwindow : inside.length ≤ 4) :
    advisoryLockKey a = advisoryLockKey b ↔ a = b := by
  constructor
  · intro h
    have hhash : a.toUTF8.data.toList.foldl round FNV_OFFSET_BASIS =
        b.toUTF8.data.toList.foldl round FNV_OFFSET_BASIS := congrArg Int64.toUInt64 h
    rw [ha,hb,List.foldl_append,List.foldl_append,List.foldl_append,List.foldl_append] at hhash
    have hinside := foldl_round_window hlength hwindow (foldl_round_injective after hhash)
    refine String.toByteArray_inj.mp (ByteArray.ext (Array.toList_inj.mp ?_))
    exact ha.trans (hinside ▸ hb.symm)
  · rintro rfl
    rfl

theorem lock_keys_apart_numbered : advisoryLockKey "worker-1" ≠ advisoryLockKey "worker-2" := by
  have ha : "worker-1".toUTF8.data.toList = "worker-".toUTF8.data.toList ++ [49] ++ [] := by decide
  have hb : "worker-2".toUTF8.data.toList = "worker-".toUTF8.data.toList ++ [50] ++ [] := by decide
  intro h
  exact absurd ((lock_keys_apart ha hb rfl (by decide)).mp h) (by decide)

end AdvisoryKeys
end EventCore
