import Mathlib.Algebra.GroupWithZero.Nat

/-! The Gregorian calendar: seconds since the beginning of 1970 as a date with a time of day, and
back. -/

namespace Calendar

/-- The block of a sequence of blocks that a position falls into, and the position within it. -/
def locate : List Nat → Nat → Nat × Nat
  | [], d => (0,d)
  | n :: ns, d => if d < n then (0,d) else ((locate ns (d-n)).1+1,(locate ns (d-n)).2)

lemma locate_spec {ns : List Nat} {d : Nat} (h : d < ns.sum) :
    (ns.take (locate ns d).1).sum+(locate ns d).2 = d ∧
      ∃ n, ns[(locate ns d).1]? = some n ∧ (locate ns d).2 < n := by
  induction ns generalizing d with
  | nil => simp at h
  | cons n ns ih =>
    rw [locate]
    split
    · next hlt => exact ⟨by simp,n,rfl,hlt⟩
    · next hge =>
      rw [List.sum_cons] at h
      obtain ⟨hs,m,hm,hlt⟩ := ih (d := d-n) (by omega)
      refine ⟨?_,m,by simpa using hm,hlt⟩
      simp only [List.take_succ_cons,List.sum_cons]
      omega

def isLeap (year : Int) : Bool := year%4 = 0 && (year%100 ≠ 0 || year%400 = 0)

def yearLength (year : Int) : Nat := if isLeap year then 366 else 365

def monthLengths (year : Int) : List Nat :=
  [31,if isLeap year then 29 else 28,31,30,31,30,31,31,30,31,30,31]

def yearLengths : List Nat := (List.range 400).map fun i : Nat => yearLength (1970+i)

def cycleDays : Nat := 146097

lemma yearLengths_sum : yearLengths.sum = cycleDays := by decide +kernel

lemma monthLengths_sum (year : Int) : (monthLengths year).sum = yearLength year := by
  rw [monthLengths,yearLength]
  cases isLeap year <;> rfl

lemma yearLength_cycle (year k : Int) : yearLength (year+400*k) = yearLength year := by
  have h4 : (year+400*k)%4 = year%4 := by omega
  have h100 : (year+400*k)%100 = year%100 := by omega
  have h400 : (year+400*k)%400 = year%400 := by omega
  rw [yearLength,isLeap,h4,h100,h400]
  rfl

/-- `struct tm`, without what follows from the rest. The year is the whole number, and the months
are counted from 0. -/
structure Tm where
  year : Int
  mon : Nat
  mday : Nat
  hour : Nat
  min : Nat
  sec : Nat
  deriving DecidableEq, Repr

def inCycle (t : Int) : Nat × Nat := locate yearLengths (t/86400%cycleDays).toNat

def gmtime (t : Int) : Tm :=
  let rem := (t%86400).toNat
  let year := 1970+((inCycle t).1 : Int)+400*(t/86400/cycleDays)
  let inYear := locate (monthLengths year) (inCycle t).2
  ⟨year,inYear.1,inYear.2+1,rem/3600,rem/60%60,rem%60⟩

def dayNumber (tm : Tm) : Int :=
  cycleDays*((tm.year-1970)/400)+(yearLengths.take ((tm.year-1970)%400).toNat).sum+
    ((monthLengths tm.year).take tm.mon).sum+tm.mday-1

def timegm (tm : Tm) : Int := 86400*dayNumber tm+3600*tm.hour+60*tm.min+tm.sec

structure Tm.Valid (tm : Tm) : Prop where
  mon : tm.mon < 12
  mday : 1 ≤ tm.mday ∧ tm.mday ≤ 31
  hour : tm.hour < 24
  min : tm.min < 60
  sec : tm.sec < 60

variable {i n : Nat}

lemma yearLengths_get (h : yearLengths[i]? = some n) :
    i < 400 ∧ n = yearLength (1970+i) := by
  rw [yearLengths,List.getElem?_map,Option.map_eq_some_iff] at h
  obtain ⟨j,hj,rfl⟩ := h
  obtain ⟨hlt,rfl⟩ := List.getElem?_eq_some_iff.mp hj
  rw [List.length_range] at hlt
  exact ⟨hlt,by rw [List.getElem_range]⟩

lemma monthLengths_get {year : Int} (h : (monthLengths year)[i]? = some n) :
    i < 12 ∧ n ≤ 31 := by
  obtain ⟨hlt,rfl⟩ := List.getElem?_eq_some_iff.mp h
  have ha : ∀ n ∈ monthLengths year, n ≤ 31 := by
    rw [monthLengths]
    cases isLeap year <;> decide
  exact ⟨hlt,ha _ (List.getElem_mem hlt)⟩

section

variable (t : Int)

lemma inCycle_spec : (inCycle t).1 < 400 ∧ (inCycle t).2 < yearLength (1970+(inCycle t).1) ∧
    ((yearLengths.take (inCycle t).1).sum+(inCycle t).2 : Int) = t/86400%cycleDays := by
  have hp : 0 ≤ t/86400%cycleDays := Int.emod_nonneg _ (by decide)
  have hlt : (t/86400%cycleDays).toNat < yearLengths.sum := by
    rw [yearLengths_sum,cycleDays]
    omega
  obtain ⟨hs,n,hn,hr⟩ := locate_spec hlt
  obtain ⟨hi,rfl⟩ := yearLengths_get hn
  exact ⟨hi,hr,by rw [inCycle]; omega⟩

lemma gmtime_year : (gmtime t).year = 1970+(inCycle t).1+400*(t/86400/cycleDays) := rfl

lemma gmtime_date : (gmtime t).mon < 12 ∧ 1 ≤ (gmtime t).mday ∧ (gmtime t).mday ≤ 31 ∧
    ((monthLengths (gmtime t).year).take (gmtime t).mon).sum+(gmtime t).mday = (inCycle t).2+1 := by
  have hlt : (inCycle t).2 < (monthLengths (gmtime t).year).sum := by
    rw [monthLengths_sum,gmtime_year,yearLength_cycle]
    exact (inCycle_spec t).2.1
  obtain ⟨hs,n,hn,hr⟩ := locate_spec hlt
  obtain ⟨hm,hd⟩ := monthLengths_get hn
  exact ⟨hm,Nat.succ_pos _,Nat.le_trans hr hd,congrArg Nat.succ hs⟩

lemma gmtime_valid : (gmtime t).Valid := by
  obtain ⟨hm,hd,hd',-⟩ := gmtime_date t
  refine ⟨hm,⟨hd,hd'⟩,?_,?_,?_⟩ <;> simp only [gmtime] <;> omega

lemma dayNumber_gmtime : dayNumber (gmtime t) = t/86400 := by
  obtain ⟨hi,-,hc⟩ := inCycle_spec t
  obtain ⟨-,-,-,hd⟩ := gmtime_date t
  have hy : (gmtime t).year-1970 = (inCycle t).1+400*(t/86400/cycleDays) := by
    rw [gmtime_year]
    omega
  have hdv : ((gmtime t).year-1970)/400 = t/86400/cycleDays := by omega
  have hm : (((gmtime t).year-1970)%400).toNat = (inCycle t).1 := by omega
  have hs := Int.mul_ediv_add_emod (t/86400) cycleDays
  rw [dayNumber,hdv,hm]
  omega

lemma timegm_gmtime : timegm (gmtime t) = t := by
  have ht : 3600*((gmtime t).hour : Int)+60*(gmtime t).min+(gmtime t).sec = t%86400 := by
    simp only [gmtime]
    omega
  rw [timegm,dayNumber_gmtime]
  omega

lemma gmtime_injective {t u : Int} (h : gmtime t = gmtime u) : t = u := by
  rw [← timegm_gmtime t,h,timegm_gmtime]

lemma nonneg_of_year (h : 1970 ≤ (gmtime t).year) : 0 ≤ t := by
  have hi := (inCycle_spec t).1
  rw [gmtime_year,cycleDays] at h
  omega

end

example : gmtime 1700000000 = ⟨2023,10,14,22,13,20⟩ := by decide +kernel

example : gmtime (-1) = ⟨1969,11,31,23,59,59⟩ := by decide +kernel

end Calendar
