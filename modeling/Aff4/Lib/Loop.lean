import Mathlib.Tactic.Common

/-! Loops with a bound on their turns. A turn ends the loop, goes on, or has no result. -/

namespace Loop

variable {S R : Type}

inductive Turn (S R : Type) where
  | done (result : R)
  | next (state : S)

def loop (turn : S → Option (Turn S R)) : Nat → S → Option R
  | 0, _ => none
  | fuel+1, s => (turn s).bind fun
    | .done r => some r
    | .next t => loop turn fuel t

variable {turn : S → Option (Turn S R)} {fuel : Nat} {s : S} {r : R}

lemma loop_cases (h : loop turn fuel s = some r) : ∃ rest, fuel = rest+1 ∧
    (turn s = some (.done r) ∨ ∃ t, turn s = some (.next t) ∧ loop turn rest t = some r) := by
  cases fuel with
  | zero => cases h
  | succ rest =>
    obtain ⟨outcome,ho,h⟩ := Option.bind_eq_some_iff.mp h
    refine ⟨rest,rfl,?_⟩
    cases outcome with
    | done r' =>
      cases h
      exact .inl ho
    | next t => exact .inr ⟨t,ho,h⟩

lemma loop_done (h : turn s = some (.done r)) : loop turn (fuel+1) s = some r := by
  rw [loop,h]
  rfl

lemma loop_next {t : S} (h : turn s = some (.next t)) :
    loop turn (fuel+1) s = loop turn fuel t := by
  rw [loop,h]
  rfl

lemma loop_counted (state : Nat → S) {n : Nat}
    (hn : ∀ k, k < n → turn (state k) = some (.next (state (k+1)))) {k : Nat} (hk : k ≤ n)
    (hf : n-k ≤ fuel) : loop turn fuel (state k) = loop turn (fuel-(n-k)) (state n) := by
  induction fuel generalizing k with
  | zero =>
    obtain rfl : k = n := by omega
    rw [Nat.sub_self]
  | succ fuel ih =>
    by_cases hlt : k < n
    · rw [loop_next (hn k hlt),ih (by omega) (by omega)]
      congr 1
      omega
    · obtain rfl : k = n := by omega
      rw [Nat.sub_self,Nat.sub_zero]

lemma loop_counted_done (state : Nat → S) (n : Nat)
    (hn : ∀ k, k < n → turn (state k) = some (.next (state (k+1))))
    (hd : turn (state n) = some (.done r)) (hf : n < fuel) :
    loop turn fuel (state 0) = some r := by
  obtain ⟨rest,hr⟩ : ∃ rest, fuel-(n-0) = rest+1 := ⟨fuel-n-1,by omega⟩
  rw [loop_counted state hn (Nat.zero_le n) (by omega),hr,loop_done hd]

lemma loop_rule (I : S → Prop) (Q : R → Prop) (hn : ∀ s t, I s → turn s = some (.next t) → I t)
    (hd : ∀ s r, I s → turn s = some (.done r) → Q r)
    (hi : I s) (h : loop turn fuel s = some r) : Q r := by
  induction fuel generalizing s with
  | zero => cases h
  | succ fuel ih =>
    obtain ⟨rest,hr,ht | ⟨t,ht,h⟩⟩ := loop_cases h
    · exact hd s r hi ht
    · obtain rfl := Nat.succ.inj hr
      exact ih (hn s t hi ht) h

lemma loop_enough (I : S → Prop) (measure : S → Nat)
    (hn : ∀ s t, I s → turn s = some (.next t) → I t ∧ measure t < measure s)
    (hi : I s) (h : loop turn fuel s = some r) {bound : Nat} (hb : measure s < bound) :
    loop turn bound s = some r := by
  induction fuel generalizing s bound with
  | zero => cases h
  | succ fuel ih =>
    obtain ⟨bound,rfl⟩ : ∃ b, bound = b+1 := Nat.exists_eq_succ_of_ne_zero (by omega)
    obtain ⟨rest,hr,htn | ⟨t,htn,h⟩⟩ := loop_cases h
    · exact loop_done htn
    · obtain rfl := Nat.succ.inj hr
      obtain ⟨ht,hl⟩ := hn s t hi htn
      rw [loop_next htn]
      exact ih ht h (by omega)

/-- When a loop returns: the condition `C` holds where it ends, fails where it has no result,
and no turn changes it. -/
lemma loop_returns_iff (I C : S → Prop) (measure : S → Nat)
    (htn : ∀ s, I s → (∃ r, turn s = some (.done r) ∧ C s) ∨ (turn s = none ∧ ¬ C s) ∨
      ∃ t, turn s = some (.next t) ∧ I t ∧ measure t < measure s ∧ (C t ↔ C s))
    (hi : I s) (hf : measure s < fuel) : (∃ r, loop turn fuel s = some r) ↔ C s := by
  induction fuel generalizing s with
  | zero => omega
  | succ fuel ih =>
    obtain ⟨r,hd,hc⟩ | ⟨hno,hc⟩ | ⟨t,hn,ht,hl,hc⟩ := htn s hi
    · exact iff_of_true ⟨r,loop_done hd⟩ hc
    · refine iff_of_false ?_ hc
      rintro ⟨r,hr⟩
      simp [loop,hno] at hr
    · rw [loop_next hn,← hc]
      exact ih ht (by omega)

end Loop
