import Aff4.Lib.Strftime
import Aff4.Serializer

/-! Integers and timestamps of rdf.c as text. -/

namespace Aff4

open LittleEndian Text Calendar

structure XSDInteger where
  value : Int64
  deriving DecidableEq

namespace XSDInteger

def serialise (self : XSDInteger) : Bytes := decimal self.value.toUInt64.toNat

def parse (_self : XSDInteger) (serialised : Bytes) : XSDInteger :=
  ⟨Int64.ofInt (strtoll serialised)⟩

lemma toNat_toUInt64 (value : Int64) : (value.toUInt64.toNat : Int) =
    if 0 ≤ value.toInt then value.toInt else value.toInt+2^64 := by
  have h : value.toInt = if 2*value.toUInt64.toNat < 2^64 then (value.toUInt64.toNat : Int)
      else value.toUInt64.toNat-2^64 := BitVec.toInt_eq_toNat_cond value.toBitVec
  have := value.toUInt64.toNat_lt
  split at h <;> split <;> omega

lemma parse_serialise_toInt (s other : XSDInteger) : (other.parse s.serialise).value.toInt =
      if 0 ≤ s.value.toInt then s.value.toInt else 2^63-1 := by
  have hl := s.value.le_toInt
  have hh := s.value.toInt_lt
  have hp := toNat_toUInt64 s.value
  rw [parse,serialise,strtoll_decimal,saturate]
  split at hp
  · next hps =>
    rw [hp,min_eq_right (by omega),max_eq_right (by omega),if_pos hps,
      Int64.toInt_ofInt_of_le hl hh]
  · next hn =>
    rw [hp,min_eq_left (by omega),max_eq_right (by omega),if_neg hn,
      Int64.toInt_ofInt_of_le (by decide) (by decide)]

/-- A value is read back exactly when it is not negative. -/
theorem parse_serialise_iff (self other : XSDInteger) :
    other.parse self.serialise = self ↔ 0 ≤ self.value := by
  have hb := parse_serialise_toInt self other
  have hv : other.parse self.serialise = self ↔
      (other.parse self.serialise).value.toInt = self.value.toInt := by
    rw [Int64.toInt_inj,mk.injEq]
  rw [hv,hb,Int64.le_iff_toInt_le,Int64.toInt_zero]
  split <;> omega

theorem parse_serialise_negative : parse ⟨0⟩ (serialise ⟨-1⟩) ≠ ⟨-1⟩ := by
  decide +kernel

end XSDInteger

structure XSDDatetime extends XSDInteger where
  gmOffset : Int32
  deriving DecidableEq

def datetimeFormat : List Conv :=
  [.field .year,.literal 45,.field .mon,.literal 45,.field .mday,.literal 84,
    .field .hour,.literal 58,.field .min,.literal 58,.field .sec]

namespace XSDDatetime

def suffix (self : XSDDatetime) : Bytes :=
  let offset := self.gmOffset.toUInt32.toNat
  46 :: (List.replicate 6 48 ++ 43 :: (twoDigits (offset/3600) ++ 58 :: twoDigits (offset%3600)))

/-- The date is always shorter than the buffer. -/
def serialise (self : XSDDatetime) : Bytes :=
  strftime datetimeFormat (gmtime (self.value.toInt.tdiv 1000000)) ++ self.suffix

def noTime : Tm := ⟨1900,0,0,0,0,0⟩

/-- The product is a `long`. -/
def stored (self : XSDDatetime) (t : Int) : Option XSDDatetime :=
  (toLong (t*1000000)).map fun value => {self with value := Int64.ofInt value}

/-- What `parse` may make of a text in a process with this time zone. -/
def Parses (zone : Zone) (self : XSDDatetime) (serialised : Bytes) (out : Option XSDDatetime) :
    Prop :=
  ∃ t, zone.Mktime (strptime datetimeFormat serialised noTime) t ∧ out = self.stored t

/-- Whatever `parse` makes of the text of a timestamp is the timestamp in whole seconds. -/
def RoundTrips (zone : Zone) (self other : XSDDatetime) : Prop :=
  (∃ out, Parses zone other self.serialise out) ∧
  ∀ out, Parses zone other self.serialise out →
    ∃ r, out = some r ∧ r.value.toInt = self.value.toInt/1000000*1000000

section

variable {zone : Zone} {s other : XSDDatetime}
  (hl : 1970 ≤ (gmtime (s.value.toInt/1000000)).year)
  (hh : (gmtime (s.value.toInt/1000000)).year ≤ 9999)

include hl in
lemma value_nonneg : 0 ≤ s.value.toInt := by
  have := nonneg_of_year _ hl
  omega

include hl hh in
lemma strptime_serialise :
    strptime datetimeFormat s.serialise noTime = gmtime (s.value.toInt/1000000) := by
  rw [serialise,Int.tdiv_eq_ediv_of_nonneg (value_nonneg hl),
    strptime_strftime (gmtime_valid _) (by omega) hh]
  generalize gmtime (s.value.toInt/1000000) = tm at *
  have hy : (tm.year.toNat : Int) = tm.year := Int.toNat_of_nonneg (by omega)
  simp [datetimeFormat,Conv.copy,Field.set,Field.get,hy]

variable (zone other) in
include hl hh in
lemma parses_iff (out : Option XSDDatetime) : Parses zone other s.serialise out ↔
    ∃ t, ((∃ u, u+zone.offset u = s.value.toInt/1000000) →
      t+zone.offset t = s.value.toInt/1000000) ∧ out = stored other t := by
  simp only [Parses,strptime_serialise hl hh,Zone.mktime_gmtime]

lemma stored_toInt {r : XSDDatetime} {t : Int} (h : stored other t = some r) :
    r.value.toInt = t*1000000 := by
  obtain ⟨value,hv,rfl⟩ := Option.map_eq_some_iff.mp h
  obtain ⟨rfl,hmn,hm⟩ := toLong_eq_some hv
  exact Int64.toInt_ofInt_of_le hmn hm

variable (other) in
include hl in
lemma stored_seconds : ∃ r, stored other (s.value.toInt/1000000) = some r := by
  have hp := value_nonneg hl
  have hm := s.value.toInt_lt
  rw [stored,toLong,if_pos (by omega)]
  exact ⟨_,rfl⟩

end

/-- A timestamp comes back exactly when local time is UTC at that instant and no other instant
has the same local time. -/
theorem roundTrips_iff (zone : Zone) (self other : XSDDatetime)
    (hl : 1970 ≤ (gmtime (self.value.toInt/1000000)).year)
    (hh : (gmtime (self.value.toInt/1000000)).year ≤ 9999) :
    RoundTrips zone self other ↔ zone.offset (self.value.toInt/1000000) = 0 ∧
      ∀ t, t+zone.offset t = self.value.toInt/1000000 → t = self.value.toInt/1000000 := by
  simp only [RoundTrips,parses_iff zone other hl hh]
  obtain ⟨stamp,hst⟩ := stored_seconds other hl
  generalize self.value.toInt/1000000 = s at *
  constructor
  · rintro ⟨-,hb⟩
    have hsa : ∀ t, ((∃ u, u+zone.offset u = s) → t+zone.offset t = s) → t = s := by
      intro t ht
      obtain ⟨r,hr,hv⟩ := hb _ ⟨t,ht,rfl⟩
      have := stored_toInt hr
      omega
    have ho : ∀ t, t+zone.offset t = s → t = s := fun t ht => hsa t fun _ => ht
    refine ⟨?_,ho⟩
    -- A local time that no instant has may be read as any instant.
    obtain ⟨u,hu⟩ : ∃ u, u+zone.offset u = s := by
      by_contra hn
      have := hsa (s+1) fun h => absurd h hn
      omega
    have hus := ho u hu
    subst hus
    omega
  · rintro ⟨hz,ho⟩
    have hs : s+zone.offset s = s := by omega
    refine ⟨⟨_,s,fun _ => hs,rfl⟩,?_⟩
    rintro out ⟨t,ht,rfl⟩
    obtain rfl := ho t (ht ⟨s,hs⟩)
    exact ⟨stamp,hst,stored_toInt hst⟩

theorem roundTrips_utc : RoundTrips ⟨fun _ => 0⟩ ⟨⟨1700000000123456⟩,3600⟩ ⟨⟨0⟩,0⟩ :=
  (roundTrips_iff _ _ _ (by decide +kernel) (by decide +kernel)).mpr
    ⟨rfl,fun t h => by simpa using h⟩

/-- An hour east of Greenwich the timestamp comes back an hour early. -/
theorem roundTrips_east_fails : ¬ RoundTrips ⟨fun _ => 3600⟩ ⟨⟨1700000000123456⟩,3600⟩ ⟨⟨0⟩,0⟩ := by
  rintro ⟨-,hb⟩
  have hp : Parses ⟨fun _ => 3600⟩ ⟨⟨0⟩,0⟩ (serialise ⟨⟨1700000000123456⟩,3600⟩)
      (stored ⟨⟨0⟩,0⟩ 1699996400) :=
    (parses_iff _ _ (by decide +kernel) (by decide +kernel) _).mpr
      ⟨1699996400,fun _ => by decide +kernel,rfl⟩
  obtain ⟨r,hr,hv⟩ := hb _ hp
  rw [stored_toInt hr] at hv
  exact absurd hv (by decide +kernel)

end XSDDatetime

end Aff4
