import Mathlib.Data.List.Nodup
import Mathlib.Order.Lattice

/-! Piecewise constant maps, given by their breakpoints: a partial function from keys to values,
whose value at a breakpoint is in force up to the next one. -/

namespace Breakpoints

open List Option

variable {K V : Type} [LinearOrder K]

/-- The value in force at `r`: that of the last breakpoint that is not above `r`. -/
def Rules (T : K → Option V) (r : K) (v : V) : Prop :=
  ∃ p, p ≤ r ∧ T p = some v ∧ ∀ q, q ≤ r → T q ≠ none → q ≤ p

def Near (T : K → Option V) (r : K) (v : V) : Prop :=
  Rules T r v ∨ (∀ q, q ≤ r → T q = none) ∧ ∃ n, r < n ∧ T n = some v ∧ ∀ q, T q ≠ none → n ≤ q

/-- Some breakpoints may be left out of `T` if those that remain give their values. -/
def Thins (T S : K → Option V) : Prop := ∀ d v, S d = some v → Near T d v

/-- `T` has no breakpoint at `d`, and a new one at `x` would decide the value there. -/
def Overtakes (T : K → Option V) (x d : K) : Prop :=
  (x < d ∧ ∀ q, x < q → q ≤ d → T q = none) ∨ (d < x ∧ ∀ q, q < x → T q = none)

variable {T S : K → Option V}

lemma rules_unique {r : K} {v w : V} (hv : Rules T r v) (hw : Rules T r w) : v = w := by
  obtain ⟨p,hp,hpv,hpm⟩ := hv
  obtain ⟨q,hq,hqw,hqm⟩ := hw
  have hpq : p = q := le_antisymm (hqm p hp (by simp [hpv])) (hpm q hq (by simp [hqw]))
  exact some.inj (hpv.symm.trans (hpq ▸ hqw))

lemma rules_iff_of_gap {p r : K} {v : V} (hp : p ≤ r) (hv : T p = some v)
    (hg : ∀ q, p < q → q ≤ r → T q = none) (w : V) : Rules T r w ↔ w = v := by
  have hr : Rules T r v := by
    refine ⟨p,hp,hv,fun q hq hne => ?_⟩
    by_contra hlt
    exact hne (hg q (not_le.mp hlt) hq)
  exact ⟨fun h => rules_unique h hr,fun h => h ▸ hr⟩

lemma rules_congr_below {T' : K → Option V} {r : K} (h : ∀ q, q ≤ r → T' q = T q) (v : V) :
    Rules T' r v ↔ Rules T r v := by
  refine exists_congr fun p => and_congr_right fun hp => ?_
  rw [h p hp]
  exact and_congr_right fun _ => forall₂_congr fun q hq => by rw [h q hq]

lemma rules_congr_above {T' : K → Option V} {b n r : K} (h : ∀ q, b < q → T' q = T q)
    (hbn : b < n) (hnr : n ≤ r) (hn : T n ≠ none) (v : V) : Rules T' r v ↔ Rules T r v := by
  have ho : ∀ {S S' : K → Option V}, (∀ q, b < q → S' q = S q) → S n ≠ none →
      Rules S r v → Rules S' r v := by
    rintro S S' h hn ⟨p,hp,hpv,hm⟩
    have hnp := hm n hnr hn
    refine ⟨p,hp,(h p (hbn.trans_le hnp)).trans hpv,fun q hq hne => ?_⟩
    by_cases hbq : b < q
    · exact hm q hq (h q hbq ▸ hne)
    · exact (not_lt.mp hbq).trans (hbn.le.trans hnp)
  exact ⟨ho (fun q hq => (h q hq).symm) (h n hbn ▸ hn),ho h hn⟩

lemma near_unique {r : K} {v w : V} (hv : Near T r v) (hw : Near T r w) : v = w := by
  rcases hv with hv | ⟨hn,m,_,hmv,hm⟩ <;> rcases hw with hw | ⟨hn',n,_,hnw,hnm⟩
  · exact rules_unique hv hw
  · obtain ⟨p,hp,hpv,_⟩ := hv
    simp [hn' p hp] at hpv
  · obtain ⟨p,hp,hpw,_⟩ := hw
    simp [hn p hp] at hpw
  · have hmn : m = n := le_antisymm (hm n (by simp [hnw])) (hnm m (by simp [hmv]))
    exact some.inj (hmv.symm.trans (hmn ▸ hnw))

lemma near_self {d : K} {v : V} (h : T d = some v) : Near T d v :=
  .inl ⟨d,le_rfl,h,fun _ hq _ => hq⟩

lemma near_iff_of_gap {x d : K} (hxd : x ≤ d) (hg : ∀ q, x < q → q ≤ d → T q = none)
    (v : V) : Near T d v ↔ Near T x v := by
  constructor
  · rintro (⟨p,hp,hpv,hmx⟩ | ⟨hno,n,hn,hnv,hm⟩)
    · have hpx : p ≤ x := by
        by_contra hlt
        simp [hg p (not_le.mp hlt) hp] at hpv
      exact .inl ⟨p,hpx,hpv,fun q hq hne => hmx q (hq.trans hxd) hne⟩
    · exact .inr ⟨fun q hq => hno q (hq.trans hxd),n,hxd.trans_lt hn,hnv,hm⟩
  · rintro (⟨p,hp,hpv,hmx⟩ | ⟨hno,n,hn,hnv,hm⟩)
    · refine .inl ⟨p,hp.trans hxd,hpv,fun q hq hne => hmx q ?_ hne⟩
      by_contra hlt
      exact hne (hg q (not_le.mp hlt) hq)
    · have hdn : d < n := by
        by_contra hle
        simp [hg n hn (not_lt.mp hle)] at hnv
      refine .inr ⟨fun q hq => ?_,n,hdn,hnv,hm⟩
      by_contra hne
      exact absurd (hm q hne) (not_le.mpr (hq.trans_lt hdn))

lemma near_iff_of_below {x d : K} (hdx : d ≤ x) (hlw : ∀ q, q < x → T q = none) (v : V) :
    Near T d v ↔ Near T x v := by
  rcases hdx.eq_or_lt with rfl | hlt
  · rfl
  constructor
  · rintro (⟨p,hp,hpv,_⟩ | ⟨_,n,_,hnv,hm⟩)
    · simp [hlw p (hp.trans_lt hlt)] at hpv
    · have hxn : x ≤ n := by
        by_contra hle
        simp [hlw n (not_le.mp hle)] at hnv
      rcases hxn.eq_or_lt with rfl | hxn
      · exact near_self hnv
      · refine .inr ⟨fun q hq => ?_,n,hxn,hnv,hm⟩
        by_contra hne
        exact absurd (hm q hne) (not_le.mpr (hq.trans_lt hxn))
  · intro h
    have hno : ∀ q, q ≤ d → T q = none := fun q hq => hlw q (hq.trans_lt hlt)
    rcases h with ⟨p,hp,hpv,_⟩ | ⟨_,n,hn,hnv,hm⟩
    · have hpx : p = x := by
        by_contra hne
        simp [hlw p (lt_of_le_of_ne hp hne)] at hpv
      subst hpx
      refine .inr ⟨hno,p,hlt,hpv,fun q hq => ?_⟩
      by_contra hle
      exact hq (hlw q (not_le.mp hle))
    · exact .inr ⟨hno,n,hlt.trans hn,hnv,hm⟩

lemma near_iff_of_overtakes {x d : K} (h : Overtakes T x d) (v : V) : Near T d v ↔ Near T x v := by
  rcases h with ⟨hxd,hg⟩ | ⟨hdx,hlw⟩
  · exact near_iff_of_gap hxd.le hg v
  · exact near_iff_of_below hdx.le hlw v

section

variable (hsb : ∀ q, T q ≠ none → S q ≠ none)
include hsb

lemma rules_of_sub (h : ∀ d v, S d = some v → Rules T d v) {r : K} {v : V} (hr : Rules S r v) :
    Rules T r v := by
  obtain ⟨i,hi,hiv,hm⟩ := hr
  obtain ⟨p,hp,hpv,hpm⟩ := h i v hiv
  exact ⟨p,hp.trans hi,hpv,fun q hq hne => hpm q (hm q hq (hsb q hne)) hne⟩

/-- A thinned map gives every value of the full one exactly when it gives those at the
breakpoints of the full one. -/
lemma rules_near_iff_thins : (∀ r v, Rules S r v → Near T r v) ↔ Thins T S := by
  constructor
  · intro h d v hd
    exact h d v ⟨d,le_rfl,hd,fun _ hq _ => hq⟩
  · rintro h r v ⟨i,hi,hiv,hm⟩
    refine (near_iff_of_gap hi (fun q hq hqr => ?_) v).mpr (h i v hiv)
    by_contra hne
    exact absurd (hm q hqr (hsb q hne)) (not_le.mpr hq)

lemma near_of_thins (h : Thins T S) {r : K} {v : V} (hr : Near S r v) : Near T r v := by
  rcases hr with hr | ⟨hlw,n,hn,hnv,hm⟩
  · exact (rules_near_iff_thins hsb).mpr h r v hr
  · refine (near_iff_of_below hn.le (fun q hq => ?_) v).mpr (h n v hnv)
    by_contra hne
    exact absurd (hm q (hsb q hne)) (not_le.mpr hq)

end

section

variable {T' : K → Option V} {x : K} {v : V}

lemma overtakes_congr (ho : ∀ q, q ≠ x → T' q = T q) {d : K} :
    Overtakes T' x d ↔ Overtakes T x d := by
  have hup : (∀ q, x < q → q ≤ d → T' q = none) ↔ ∀ q, x < q → q ≤ d → T q = none :=
    forall_congr' fun q => forall_congr' fun hq => by rw [ho q hq.ne']
  have hd : (∀ q, q < x → T' q = none) ↔ ∀ q, q < x → T q = none :=
    forall_congr' fun q => forall_congr' fun hq => by rw [ho q hq.ne]
  rw [Overtakes,Overtakes,hup,hd]

lemma near_of_not_overtakes (ho : ∀ q, q ≠ x → T' q = T q) {d : K} (hd : d ≠ x) {w : V}
    (hn : ¬ Overtakes T x d) (h : Near T d w) : Near T' d w := by
  simp only [Overtakes,not_or,not_and,not_forall,exists_prop] at hn
  rcases lt_or_gt_of_ne hd with hdx | hxd
  · obtain ⟨q,hqx,hq⟩ := hn.2 hdx
    rcases h with ⟨p,hp,hpw,hm⟩ | ⟨hno,n,hdn,hnw,hmn⟩
    · refine .inl ⟨p,hp,(ho p (hp.trans_lt hdx).ne).trans hpw,fun t ht hne => ?_⟩
      exact hm t ht (ho t (ht.trans_lt hdx).ne ▸ hne)
    · have hnx : n < x := (hmn q hq).trans_lt hqx
      refine .inr ⟨fun t ht => ?_,n,hdn,(ho n hnx.ne).trans hnw,fun t ht => ?_⟩
      · exact (ho t (ht.trans_lt hdx).ne).trans (hno t ht)
      · rcases eq_or_ne t x with rfl | htx
        · exact hnx.le
        · exact hmn t (ho t htx ▸ ht)
  · obtain ⟨q,hxq,hqd,hq⟩ := hn.1 hxd
    rcases h with ⟨p,hp,hpw,hm⟩ | ⟨hno,_⟩
    · have hxp : x < p := hxq.trans_le (hm q hqd hq)
      refine .inl ⟨p,hp,(ho p hxp.ne').trans hpw,fun t ht hne => ?_⟩
      rcases eq_or_ne t x with rfl | htx
      · exact hxp.le
      · exact hm t ht (ho t htx ▸ hne)
    · exact absurd (hno q hqd) hq

/-- Putting `v` at `x` into the full map, and into the thinned one whatever at `x` gives `v`
there, keeps the second a thinning of the first exactly when `v` was in force at `x` already
or no breakpoint is overtaken. -/
lemma thins_put_iff {S' : K → Option V} (ht : Thins T S)
    (hoth : ∀ q, q ≠ x → T' q = T q) (hx : Near T' x v)
    (hp : S' x = some v) (hk : ∀ q, q ≠ x → S' q = S q) :
    Thins T' S' ↔ Near T x v ∨ ∀ d, S d ≠ none → ¬ Overtakes T x d := by
  constructor
  · intro h
    by_contra hn
    simp only [not_or,not_forall,not_not,exists_prop] at hn
    obtain ⟨hnr,d,hd,ho⟩ := hn
    obtain ⟨w,hw⟩ := ne_none_iff_exists'.mp hd
    have hdx : d ≠ x := by
      rintro rfl
      rcases ho with ⟨h,_⟩ | ⟨h,_⟩ <;> exact lt_irrefl _ h
    have hold : Near T x w := (near_iff_of_overtakes ho w).mp (ht d w hw)
    have hnw : Near T' x w := (near_iff_of_overtakes ((overtakes_congr hoth).mpr ho) w).mp
      (h d w ((hk d hdx).trans hw))
    exact hnr (near_unique hnw hx ▸ hold)
  · intro h d w hw
    rcases eq_or_ne d x with rfl | hdx
    · exact some.inj (hp.symm.trans hw) ▸ hx
    have hd : S d = some w := (hk d hdx).symm.trans hw
    by_cases ho : Overtakes T x d
    · rcases h with h | h
      · have hold : Near T x w := (near_iff_of_overtakes ho w).mp (ht d w hd)
        rw [near_unique hold h]
        exact (near_iff_of_overtakes ((overtakes_congr hoth).mpr ho) v).mpr hx
      · exact absurd ho (h d (by simp [hd]))
    · exact near_of_not_overtakes hoth hdx ho (ht d w hd)

end

variable {α : Type} (key : α → K) (value : α → V)

def Sorted (l : List α) : Prop := l.Pairwise fun a b => key a < key b

def psearch (l : List α) (k : K) : Option α := (l.filter fun a => key a ≤ k).getLast?

def nsearch (l : List α) (k : K) : Option α := l.find? fun a => k ≤ key a

def place (x : α) (l : List α) : List α :=
  (l.filter fun a => key a < key x) ++ x :: l.filter fun a => key x < key a

def erase (k : K) (l : List α) : List α := l.filter fun a => key a ≠ k

def points (l : List α) (k : K) : Option V := (l.find? fun a => key a = k).map value

variable {key value} {l : List α}

variable (hl : Sorted key l)

include hl in
lemma Sorted.eq_of_key {a b : α} (ha : a ∈ l) (hb : b ∈ l) (h : key a = key b) : a = b := by
  have hk : (l.map key).Nodup := pairwise_map.mpr (List.Pairwise.imp (fun h => h.ne) hl)
  exact inj_on_of_nodup_map hk ha hb h

include hl in
lemma sorted_erase (k : K) : Sorted key (erase key k l) := List.Pairwise.filter _ hl

include hl in
lemma sorted_place (x : α) : Sorted key (place key x l) := by
  refine pairwise_append.mpr ⟨hl.filter _,pairwise_cons.mpr ⟨?_,hl.filter _⟩,?_⟩
  · intro a ha
    simpa using (mem_filter.mp ha).2
  · intro a ha b hb
    have hax : key a < key x := by simpa using (mem_filter.mp ha).2
    rcases mem_cons.mp hb with rfl | hb
    · exact hax
    · exact hax.trans (by simpa using (mem_filter.mp hb).2)

variable {k : K}

lemma mem_erase {a : α} : a ∈ erase key k l ↔ a ∈ l ∧ key a ≠ k := by simp [erase]

lemma mem_place {x a : α} : a ∈ place key x l ↔ a = x ∨ a ∈ l ∧ key a ≠ key x := by
  simp only [place,mem_append,mem_cons,mem_filter,decide_eq_true_eq,ne_iff_lt_or_gt]
  tauto

lemma place_erase (x : α) : place key x (erase key (key x) l) = place key x l := by
  have hlw : ∀ a ∈ l, (decide (key a < key x) && decide (key a ≠ key x)) =
      decide (key a < key x) := fun a _ => by simpa using LT.lt.ne
  have hh : ∀ a ∈ l, (decide (key x < key a) && decide (key a ≠ key x)) =
      decide (key x < key a) := fun a _ => by simpa using LT.lt.ne'
  rw [place,place,erase,List.filter_filter,List.filter_filter,filter_congr hlw,filter_congr hh]

variable (key) in
lemma length_place (x : α) (l : List α) :
    (place key x l).length = (erase key (key x) l).length+1 := by
  induction l with
  | nil => rfl
  | cons a l ih =>
    simp only [place,erase,length_append,length_cons] at ih ⊢
    rcases lt_trichotomy (key a) (key x) with h | h | h
    · simp [h,h.ne,h.not_gt] at ih ⊢
      omega
    · simpa [h] using ih
    · simp [h,h.ne',h.not_gt] at ih ⊢
      omega

include hl in
lemma points_eq_some {v : V} :
    points key value l k = some v ↔ ∃ a ∈ l, key a = k ∧ value a = v := by
  simp only [points,map_eq_some_iff]
  constructor
  · rintro ⟨a,ha,hv⟩
    exact ⟨a,mem_of_find?_eq_some ha,by simpa using find?_some ha,hv⟩
  · rintro ⟨a,ha,hk,hv⟩
    cases h : l.find? fun a => key a = k with
    | none => exact absurd hk (by simpa using find?_eq_none.mp h a ha)
    | some b =>
      have hb : key b = k := by simpa using find?_some h
      have hba := hl.eq_of_key (mem_of_find?_eq_some h) ha (hb.trans hk.symm)
      exact ⟨b,rfl,hba ▸ hv⟩

lemma points_eq_none : points key value l k = none ↔ ∀ a ∈ l, key a ≠ k := by simp [points]

include hl in
lemma psearch_eq_some {p : α} (h : psearch key l k = some p) :
    p ∈ l ∧ key p ≤ k ∧ ∀ a ∈ l, key a ≤ k → key a ≤ key p := by
  obtain ⟨front,hf⟩ := getLast?_eq_some_iff.mp h
  have hp : p ∈ l.filter fun a => key a ≤ k := hf ▸ by simp
  have hs := hl.filter fun a => key a ≤ k
  rw [hf,pairwise_append] at hs
  refine ⟨(mem_filter.mp hp).1,by simpa using (mem_filter.mp hp).2,fun a ha hak => ?_⟩
  have hm : a ∈ l.filter fun a => key a ≤ k := mem_filter.mpr ⟨ha,by simpa using hak⟩
  rw [hf,mem_append,mem_singleton] at hm
  rcases hm with hm | rfl
  · exact (hs.2.2 a hm p mem_cons_self).le
  · exact le_rfl

lemma psearch_eq_none : psearch key l k = none ↔ ∀ a ∈ l, k < key a := by simp [psearch]

lemma psearch_of_le (h : ∀ a ∈ l, key a ≤ k) : psearch key l k = l.getLast? := by
  rw [psearch,filter_eq_self.mpr fun a ha => by simpa using h a ha]

include hl in
lemma nsearch_eq_some {n : α} (h : nsearch key l k = some n) :
    n ∈ l ∧ k ≤ key n ∧ ∀ a ∈ l, k ≤ key a → key n ≤ key a := by
  obtain ⟨hn,before,after,rfl,hb⟩ := find?_eq_some_iff_append.mp h
  refine ⟨by simp,by simpa using hn,fun a ha hka => ?_⟩
  rcases mem_append.mp ha with ha | ha
  · exact absurd hka (by simpa using hb a ha)
  · rcases mem_cons.mp ha with rfl | ha
    · exact le_rfl
    · exact ((pairwise_cons.mp (pairwise_append.mp hl).2.1).1 a ha).le

lemma nsearch_eq_none : nsearch key l k = none ↔ ∀ a ∈ l, key a < k := by simp [nsearch]

include hl in
lemma rules_of_psearch {r : K} {p : α} (h : psearch key l r = some p) :
    Rules (points key value l) r (value p) := by
  obtain ⟨hp,hpr,hm⟩ := psearch_eq_some hl h
  refine ⟨key p,hpr,(points_eq_some hl).mpr ⟨p,hp,rfl,rfl⟩,fun q hq hne => ?_⟩
  obtain ⟨v,hv⟩ := ne_none_iff_exists'.mp hne
  obtain ⟨a,ha,rfl,_⟩ := (points_eq_some hl).mp hv
  exact hm a ha hq

include hl in
lemma near_of_nsearch {r k : K} (hk : ∀ a ∈ l, k ≤ key a ↔ r < key a) {n : α}
    (hno : psearch key l r = none) (h : nsearch key l k = some n) :
    Near (points key value l) r (value n) := by
  obtain ⟨hn,hkn,_⟩ := nsearch_eq_some hl h
  have hlw := psearch_eq_none.mp hno
  refine .inr ⟨fun q hq => ?_,key n,(hk n hn).mp hkn,(points_eq_some hl).mpr ⟨n,hn,rfl,rfl⟩,
    fun q hq => ?_⟩
  · refine points_eq_none.mpr fun a ha hak => ?_
    exact absurd (hlw a ha) (not_lt.mpr (hak ▸ hq))
  · obtain ⟨v,hv⟩ := ne_none_iff_exists'.mp hq
    obtain ⟨a,ha,rfl,_⟩ := (points_eq_some hl).mp hv
    exact (nsearch_eq_some hl h).2.2 a ha ((hk a ha).mpr (hlw a ha))

include hl in
lemma points_place_self (x : α) : points key value (place key x l) (key x) = some (value x) :=
  (points_eq_some (sorted_place hl x)).mpr ⟨x,mem_place.mpr (.inl rfl),rfl,rfl⟩

lemma points_erase_of_ne {k q : K} (hq : q ≠ k) :
    points key value (erase key k l) q = points key value l q := by
  rw [points,erase,find?_filter]
  congr 2
  funext a
  by_cases h : key a = q <;> simp [h,hq]

include hl in
lemma points_place_of_ne (x : α) {q : K} (hq : q ≠ key x) :
    points key value (place key x l) q = points key value l q := by
  refine ext fun v => ?_
  rw [points_eq_some (sorted_place hl x),points_eq_some hl]
  constructor
  · rintro ⟨a,ha,rfl,hv⟩
    rcases mem_place.mp ha with rfl | ⟨ha,_⟩
    · exact absurd rfl hq
    · exact ⟨a,ha,rfl,hv⟩
  · rintro ⟨a,ha,rfl,hv⟩
    exact ⟨a,mem_place.mpr (.inr ⟨ha,hq⟩),rfl,hv⟩

end Breakpoints
