import Mathlib
import EventArchive.Config.Basic

/-! # Watermarks

The marks of the records are percentages of the size limit of a tier.  Those of the
index keys of demoted records are percentages of what the limit leaves above the high
mark of the records.  Every one of them is rounded down, the latter twice.

With settings that are accepted no percentage is above a hundred, so none is too large
for a number of 64 bits (`toNat_percentOf`), and two that make up no more than a hundred
fit together into their total (`percentOf_add_le`).  So the marks are in order and the
two budgets share the limit, whatever it is (`marks_consistent`).
-/
namespace EventArchive

/-! ### Percentages -/

section
variable (total : UInt64) {p q : UInt8}

theorem toNat_percentOf (hp : p ≤ 100) :
    (percentOf total p).toNat = total.toNat * p.toNat / 100 := by
  have hle : p.toNat ≤ 100 := UInt8.le_iff_toNat_le.mp hp
  have hmul : total.toNat * p.toNat ≤ total.toNat * 100 := Nat.mul_le_mul_left _ hle
  have htotal := total.toNat_lt
  rw [percentOf, UInt64.toNat_ofNat', Nat.mod_eq_of_lt]
  omega

theorem percentOf_le_percentOf (hpq : p ≤ q) (hq : q ≤ 100) :
    percentOf total p ≤ percentOf total q := by
  rw [UInt64.le_iff_toNat_le, toNat_percentOf total (UInt8.le_trans hpq hq),
    toNat_percentOf total hq]
  exact Nat.div_le_div_right (Nat.mul_le_mul_left _ (UInt8.le_iff_toNat_le.mp hpq))

/-- What two percentages come to, each rounded down, is within the total. -/
theorem percentOf_add_le (hsum : p.toNat + q.toNat ≤ 100) :
    (percentOf total p).toNat + (percentOf total q).toNat ≤ total.toNat := by
  have hp : p ≤ 100 := UInt8.le_iff_toNat_le.mpr (Nat.le_of_add_right_le hsum)
  have hq : q ≤ 100 := UInt8.le_iff_toNat_le.mpr (Nat.le_of_add_left_le hsum)
  have hmul : total.toNat * p.toNat + total.toNat * q.toNat ≤ total.toNat * 100 := by
    rw [← Nat.mul_add]
    exact Nat.mul_le_mul_left _ hsum
  rw [toNat_percentOf total hp, toNat_percentOf total hq]
  omega

theorem percentOf_le (hp : p ≤ 100) : percentOf total p ≤ total := by
  have hsum := percentOf_add_le total (p := p) (q := 0)
    (by simpa using UInt8.le_iff_toNat_le.mp hp)
  exact UInt64.le_iff_toNat_le.mpr (Nat.le_of_add_right_le hsum)

end

/-! ### Marks -/

namespace CollectionConfig
variable {c : CollectionConfig}

/-- What is accepted of the percentages. -/
theorem validate_eq_ok_iff : c.validate = .ok () ↔
    (c.lowWater < c.highWater ∧ c.highWater ≤ 100) ∧
      c.indexLowWater < c.indexHighWater ∧ c.indexHighWater ≤ 100 := by
  rw [validate]
  split_ifs with hmarks hindex
  · refine iff_of_false nofun fun h => ?_
    rcases hmarks with hle | hlt
    · exact UInt8.not_lt.mpr hle h.1.1
    · exact UInt8.not_lt.mpr h.1.2 hlt
  · refine iff_of_false nofun fun h => ?_
    rcases hindex with hle | hlt
    · exact UInt8.not_lt.mpr hle h.2.1
    · exact UInt8.not_lt.mpr h.2.2 hlt
  · rw [not_or, UInt8.not_le, UInt8.not_lt] at hmarks hindex
    exact iff_of_true rfl ⟨hmarks, hindex⟩

/-- The percentage above the high mark. -/
theorem toNat_headroom (hhigh : c.highWater ≤ 100) :
    (100 - min c.highWater 100).toNat = 100 - c.highWater.toNat := by
  have hmin : min c.highWater 100 = c.highWater := if_pos hhigh
  rw [hmin, UInt8.toNat_sub_of_le _ _ hhigh]
  rfl

variable (hvalid : c.validate = .ok ())
include hvalid

theorem lowMark_le_highMark : c.lowMark ≤ c.highMark := by
  obtain ⟨⟨hlt, hle⟩, -⟩ := validate_eq_ok_iff.mp hvalid
  exact percentOf_le_percentOf _ (UInt8.le_of_lt hlt) hle

theorem indexLowMark_le_indexHighMark : c.indexLowMark ≤ c.indexHighMark := by
  obtain ⟨-, hlt, hle⟩ := validate_eq_ok_iff.mp hvalid
  exact percentOf_le_percentOf _ (UInt8.le_of_lt hlt) hle

theorem indexHighMark_le_indexHeadroom : c.indexHighMark ≤ c.indexHeadroom :=
  percentOf_le _ (validate_eq_ok_iff.mp hvalid).2.2

/-- The high mark of the records and what is left above it share the size limit. -/
theorem highMark_add_indexHeadroom_le :
    c.highMark.toNat + c.indexHeadroom.toNat ≤ c.sizeLimit.toNat := by
  obtain ⟨⟨-, hhigh⟩, -⟩ := validate_eq_ok_iff.mp hvalid
  have hle : c.highWater.toNat ≤ 100 := UInt8.le_iff_toNat_le.mp hhigh
  refine percentOf_add_le _ ?_
  rw [toNat_headroom hhigh, Nat.add_sub_cancel' hle]

/-- So do the two high marks. -/
theorem highMarks_le_sizeLimit :
    c.highMark.toNat + c.indexHighMark.toNat ≤ c.sizeLimit.toNat :=
  (Nat.add_le_add_left (UInt64.le_iff_toNat_le.mp (indexHighMark_le_indexHeadroom hvalid)) _).trans
    (highMark_add_indexHeadroom_le hvalid)

omit hvalid

/-- **Marks that are consistent**: each is its percentage, rounded down and with no bit cut off,
and they are in order and within their budgets. -/
structure Consistent (c : CollectionConfig) : Prop where
  highMark_eq : c.highMark.toNat = c.sizeLimit.toNat * c.highWater.toNat / 100
  lowMark_eq : c.lowMark.toNat = c.sizeLimit.toNat * c.lowWater.toNat / 100
  indexHeadroom_eq :
    c.indexHeadroom.toNat = c.sizeLimit.toNat * (100 - c.highWater.toNat) / 100
  indexHighMark_eq : c.indexHighMark.toNat = c.indexHeadroom.toNat * c.indexHighWater.toNat / 100
  indexLowMark_eq : c.indexLowMark.toNat = c.indexHeadroom.toNat * c.indexLowWater.toNat / 100
  records : c.lowMark ≤ c.highMark ∧ c.highMark ≤ c.sizeLimit
  indices : c.indexLowMark ≤ c.indexHighMark ∧ c.indexHighMark ≤ c.indexHeadroom
  /-- The budgets of the records and of the index keys do not overlap. -/
  apart : c.highMark.toNat + c.indexHeadroom.toNat ≤ c.sizeLimit.toNat

/-- **The marks of accepted settings are consistent**, whatever the size limit is. -/
theorem marks_consistent (hvalid : c.validate = .ok ()) (limit : UInt64) :
    { c with sizeLimit := limit }.Consistent := by
  -- the size limit is no part of what is validated
  have hvalid' : { c with sizeLimit := limit }.validate = .ok () := hvalid
  obtain ⟨⟨hlow, hhigh⟩, hindexLow, hindexHigh⟩ := validate_eq_ok_iff.mp hvalid
  have hlow' : c.lowWater ≤ 100 := UInt8.le_of_lt (UInt8.lt_of_lt_of_le hlow hhigh)
  have hindexLow' : c.indexLowWater ≤ 100 :=
    UInt8.le_of_lt (UInt8.lt_of_lt_of_le hindexLow hindexHigh)
  have hroom : 100 - min c.highWater 100 ≤ 100 := by
    rw [UInt8.le_iff_toNat_le, toNat_headroom hhigh]
    exact Nat.sub_le _ _
  exact {
    highMark_eq := toNat_percentOf _ hhigh
    lowMark_eq := toNat_percentOf _ hlow'
    indexHeadroom_eq := by rw [indexHeadroom, toNat_percentOf _ hroom, toNat_headroom hhigh]
    indexHighMark_eq := toNat_percentOf _ hindexHigh
    indexLowMark_eq := toNat_percentOf _ hindexLow'
    records := ⟨lowMark_le_highMark hvalid', percentOf_le _ hhigh⟩
    indices := ⟨indexLowMark_le_indexHighMark hvalid', indexHighMark_le_indexHeadroom hvalid'⟩
    apart := highMark_add_indexHeadroom_le hvalid' }

/-- At the largest size limit, with a high mark that leaves one percent. -/
theorem marks_consistent_largest :
    let c : CollectionConfig := ⟨0, 98, 99, 300, 0, 100⟩
    let largest : UInt64 := 18446744073709551615
    c.validate = .ok () ∧ { c with sizeLimit := largest }.Consistent ∧
      { c with sizeLimit := largest }.highMark = 18262276632972456098 ∧
      { c with sizeLimit := largest }.indexHighMark = 184467440737095516 := by
  intro c largest
  have hvalid : c.validate = .ok () := rfl
  exact ⟨hvalid, marks_consistent hvalid largest, by decide, by decide⟩

end CollectionConfig
end EventArchive
